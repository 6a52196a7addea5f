/-
  sleep and wakeup refine the monitor.

  In a monitor, a thread gives up the lock and falls asleep in one step, and a wakeup
  wakes up all threads on a channel in one step.  sleep and wakeup of proc.c take many
  steps for this, on many CPUs; but the monitor follows each of them (`Refines.step`):
  it does nothing, or the same process takes a step, or some process takes the lock again
  or is killed.
-/
import OSLabs.Kernel.SleepRelation

namespace OSLabs.Sleep

open LockMachine

variable {n : ℕ} {S K P C : Type} [DecidableEq K] [DecidableEq C] {B : Client n S K P}
  {t w x : Fin n} {q q' : Point B} {m m' : Mem n S K} {l : Lock n} {k : K} {st st' : Status}
  {α α' : MState n S K P} {φ φ' : SState B C}

/-! ## The simulation -/

/-- What the monitor does when the machine takes a step: nothing, or a step of the same
    process, or one of no process. -/
def Follows (B : Client n S K P) (α : MState n S K P) (a : Option (Fin n))
    (α' : MState n S K P) : Prop :=
  α' = α ∨ ∃ b, Monitor.Step B.code α b α' ∧ ∀ u, b = some u → a = some u

theorem Follows.refl {a : Option (Fin n)} : Follows B α a α := .inl rfl

theorem Follows.step {a : Option (Fin n)} (h : Monitor.Step B.code α a α') : Follows B α a α' :=
  .inr ⟨a, h, fun _ => id⟩

theorem Follows.silent {a : Option (Fin n)} (h : Monitor.Step B.code α none α') :
    Follows B α a α' :=
  .inr ⟨none, h, fun u hu => by cases hu⟩

omit [DecidableEq C] in
/-- A process in the monitor's code does there what it does here. -/
theorem Refines.instr (h : Refines φ α) {p : P} (hq : φ.pc t = .place (.client p))
    {i : Monitor.Instr S K P} (hi : B.code.instr t p φ.mem.shared (φ.mem.killed t) i) :
    α.ctx t = .awake ∧ α.pc t = p ∧ B.code.instr t (α.pc t) α.mem (α.killed t) i := by
  have hf := h.fits t
  rw [hq] at hf
  have hp : α.pc t = p := hf.pc.symm
  exact ⟨hf.awake rfl, hp, by rwa [hp, ← h.shared, ← h.killed]⟩

variable (h : Refines φ α) (hI : (discipline B).Inv φ) (hT : Table φ) (hM : B.disc.Inv α)
  {c : C} (hc : φ.ctx c = .running t)

include h hI hM hc in
theorem Acquires.follow {q₀ : Point B} (hq₀ : φ.pc t = q₀) (ha : Acquires t φ.mem q₀ l q')
    (hfree : φ.owner l = none) :
    ∃ α', Follows B α (some t) α' ∧ Refines ((φ.lock c l).goto t q') α' := by
  cases ha with
  | @client p p' hi =>
    obtain ⟨hawake, -, hi'⟩ := h.instr hq₀ hi
    refine ⟨_, .step (.acquire hawake hi' (h.free hI hM hfree)), ?_⟩
    refine h.client hq₀ rfl rfl h.shared h.killed (fun x hx => ?_) (fun _ => id) ?_
      fun _ _ => False.elim
    · simp [hx]
    · simp only [Monitor.State.goto_pc, Function.update_self, Monitor.State.goto_ctx,
        Monitor.State.give_ctx, hawake]
      exact .client rfl rfl
  | @sleep p k p' hi =>
    obtain ⟨hawake, hp, hi'⟩ := h.instr hq₀ hi
    have hheld := (B.disc.sleep hi').1
    have hown := (hM.owner t).2 ⟨hawake, hheld⟩
    have hmon : .mon ∈ (φ.pc t).locks t ∧ (φ.pc t).parked = false := by
      rw [hq₀]
      have hlocks : (Point.place (.client p) : Point B).locks t = [.mon] :=
        locks_client (hp ▸ hheld)
      exact ⟨by rw [hlocks]; exact List.mem_singleton_self _, rfl⟩
    have hnone : ∀ k, ¬ Waking φ k := by
      rintro k ⟨w, hw⟩
      obtain rfl := one_of_wakes hI hw hmon.1 hmon.2
      rw [hq₀] at hw; exact hw
    refine ⟨_, .step (.sleep hawake hi' hown), ?_⟩
    refine h.client hq₀ rfl rfl h.shared h.killed (fun x hx => ?_) (fun _ => id) ?_
      fun k _ _ => hnone k
    · simp [hx]
    · simp only [Monitor.State.goto_pc, Function.update_self, Monitor.State.goto_ctx,
        Monitor.State.setCtx_ctx]
      refine ⟨rfl, fun hb => (by cases hb), fun k' hk' _ => ?_, fun k' _ hw => absurd hw (hnone k'),
        fun _ hn => absurd rfl (hn k)⟩
      obtain rfl : k = k' := hk'
      rfl
  | @reacquire p hp =>
    have hf := h.fits t
    rw [hq₀] at hf
    have hwoken := hf.risen rfl fun _ => id
    refine ⟨_, .silent (.resume hwoken (h.free hI hM hfree)), ?_⟩
    have hpt : ((φ.lock c .mon).goto t (.place (.client p))).pc t = .place (.client p) := by simp
    have hpx : ∀ x ≠ t, ((φ.lock c .mon).goto t (.place (.client p))).pc x = φ.pc x :=
      fun x hx => by simp [hx]
    have hwk : ∀ k, (Point.place (.client p) : Point B).wakes k ↔ (φ.pc t).wakes k := fun k => by
      rw [hq₀]; exact Iff.rfl
    refine ⟨h.shared, h.killed, fun x => ?_, fun w k x hw hx => ?_⟩
    · refine Fits.congr (W := Waking φ) ?_ (waking_congr rfl hwk)
      by_cases hxt : x = t
      · subst hxt
        simp only [hpt, Monitor.State.setCtx_ctx, Function.update_self]
        exact .client hf.pc rfl
      · simp only [hpx x hxt, Monitor.State.setCtx_ctx, Function.update_of_ne hxt]
        exact h.fits x
    · have hwt : w ≠ t := by
        rintro rfl; rw [hpt] at hw; exact hw
      have hxt : x ≠ t := by
        rintro rfl; rw [Dozes, hpt] at hx; exact hx
      rw [hpx w hwt] at hw ⊢
      rw [Dozes, hpx x hxt] at hx
      exact h.ahead w k x hw hx
  | wakeup | kill | yield =>
    exact ⟨α, .refl, h.still hq₀ rfl rfl rfl rfl rfl rfl (fun _ _ => Iff.rfl) (fun _ => Iff.rfl)
      fun _ _ _ _ _ => id⟩

include h hM in
theorem Releases.follow {q₀ : Point B} (hq₀ : φ.pc t = q₀) (hr : Releases t φ.mem q₀ l q') :
    ∃ α', Follows B α (some t) α' ∧ Refines ((φ.unlock c l).goto t q') α' := by
  cases hr with
  | @client p p' hi =>
    obtain ⟨hawake, -, hi'⟩ := h.instr hq₀ hi
    have hown := (hM.owner t).2 ⟨hawake, (B.disc.release hi').1⟩
    refine ⟨_, .step (.release hawake hi' hown), ?_⟩
    refine h.client hq₀ rfl rfl h.shared h.killed (fun x hx => ?_) (fun _ => id) ?_
      fun _ _ => False.elim
    · simp [hx]
    · simp only [Monitor.State.goto_pc, Function.update_self, Monitor.State.goto_ctx,
        Monitor.State.give_ctx, hawake]
      exact .client rfl rfl
  | wakeup =>
    exact ⟨α, .refl, h.still hq₀ rfl rfl rfl rfl rfl rfl (fun _ _ => Iff.rfl) (fun _ => Iff.rfl)
      fun _ _ _ _ _ => Nat.succ_le_of_lt⟩
  | forkret | sleepMon | sleepProc | killed | killNext | yield =>
    exact ⟨α, .refl, h.still hq₀ rfl rfl rfl rfl rfl rfl (fun _ _ => Iff.rfl) (fun _ => Iff.rfl)
      fun _ _ _ _ _ => id⟩

omit [DecidableEq C] in
/-- While a process holds the lock of another one, that one does not doze awake. -/
theorem sleeping_of_dozes (hI : (discipline B).Inv φ) (hxt : x ≠ t)
    (ht : .proc x ∈ (φ.pc t).locks t) (hp : (φ.pc t).parked = false) (hd : Dozes φ k x) :
    φ.mem.state x = .sleeping ∧ (φ.pc x).sleeps = some k := by
  refine (held_of_dozes (t := x) hd).resolve_left fun ⟨hx, hpx⟩ => hxt ?_
  exact hI.exclusive (l := .proc x) hpx hp hx ht

omit [DecidableEq C] in
theorem Table.sleeps (hT : Table φ) (hst : φ.mem.state x = .sleeping)
    (hch : φ.mem.chan x = some k) : (φ.pc x).sleeps = some k := by
  obtain ⟨k', hk'⟩ := hT.sleeping x hst
  have := hT.chan x k' (onChan_of_sleeps hk')
  rw [hch] at this
  rw [hk', ← this]

theorem kill_ctx_of_asleep {y : Fin n} (hne : ∀ k, α.ctx y ≠ .asleep k) :
    (α.kill y).ctx = α.ctx := by
  funext z
  simp only [Monitor.State.kill]
  by_cases hz : z = y
  · subst hz
    rw [Function.update_self]
    cases hc : α.ctx z with
    | awake => rfl
    | asleep k => exact absurd hc (hne k)
    | woken => rfl
  · rw [Function.update_of_ne hz]

include h hI hT hc in
omit [DecidableEq C] in
theorem Runs.follow {q₀ : Point B} (hq₀ : φ.pc t = q₀) (hr : Runs t φ.mem q₀ m' q') :
    ∃ α', Follows B α (some t) α' ∧ Refines ((φ.store m').goto t q') α' := by
  have hrun : φ.mem.state t = .running :=
    (hI.threads.running t c hc).2 (by
      show (φ.pc t).awake = true
      rw [hq₀]; exact hr.awake)
  have hself : ∀ {x}, φ.mem.state x = .sleeping → x ≠ t := by
    rintro x hx rfl
    rw [hrun] at hx; cases hx
  cases hr with
  | @client p s p' hi =>
    obtain ⟨hawake, -, hi'⟩ := h.instr hq₀ hi
    refine ⟨_, .step (.run hawake hi'), ?_⟩
    refine h.client hq₀ rfl rfl rfl h.killed (fun x hx => ?_) (fun _ => id) ?_
      fun _ _ => False.elim
    · simp [hx]
    · simp only [Monitor.State.goto_pc, Function.update_self, Monitor.State.goto_ctx,
        Monitor.State.store_ctx, hawake]
      exact .client rfl rfl
  | @wakeup p k p' hi =>
    obtain ⟨hawake, -, hi'⟩ := h.instr hq₀ hi
    have hmon : .mon ∈ (φ.pc t).locks t ∧ (φ.pc t).parked = false := by
      rw [hq₀, locks_client (B.wakes hi)]
      exact ⟨List.mem_singleton_self _, rfl⟩
    refine ⟨_, .step (.wakeup hawake hi'), h.wakeup hq₀ rfl rfl ?_⟩
    rintro k ⟨w, hw⟩
    obtain rfl := one_of_wakes hI hw hmon.1 hmon.2
    rw [hq₀] at hw; exact hw
  | kill | preempt | killEnd | killNot =>
    exact ⟨α, .refl, h.still hq₀ rfl rfl rfl rfl rfl rfl (fun _ _ => Iff.rfl) (fun _ => Iff.rfl)
      fun _ _ _ _ _ => id⟩
  | wakeupSelf =>
    refine ⟨α, .refl, h.still hq₀ rfl rfl rfl rfl rfl rfl (fun _ _ => Iff.rfl) (fun _ => Iff.rfl)
      fun _ x hx _ _ (ha : (t : ℕ) ≤ x) => ?_⟩
    exact Nat.lt_of_le_of_ne ha fun he => hx (Fin.ext he.symm)
  | wakeupEnd hi =>
    refine ⟨α, .refl, h.wakeupEnd hi hq₀ rfl rfl fun w k' hw => ?_⟩
    exact one_of_wakes hI hw (by rw [hq₀]; exact List.mem_singleton_self _) (by rw [hq₀]; rfl)
  | @wake k p hp x hx hch =>
    have hsl := hT.sleeps hx hch
    have hxt := hself hx
    have hd : Dozes φ k x := (dozes_of_sleeps hsl).2 ⟨rfl, hx⟩
    refine ⟨α, .refl, h.rise hsl hxt rfl rfl h.shared h.killed rfl (fun _ _ => rfl)
      ((h.fits x).woken k hd ⟨t, by rw [hq₀]; rfl⟩) (by rw [hq₀]; rfl) (by rw [hq₀]; rfl)
      (fun _ => by rw [Dozes, hq₀]; exact Iff.rfl) (fun _ => by rw [hq₀]; exact Iff.rfl) ?_⟩
    intro k' y hy _ _ ha
    rw [hq₀] at ha
    exact Nat.lt_of_le_of_ne ha fun he => hy (Fin.ext he.symm)
  | @wakeNot k p hp x hx =>
    refine ⟨α, .refl, h.still hq₀ rfl rfl rfl rfl rfl rfl (fun _ _ => Iff.rfl) (fun _ => Iff.rfl)
      fun k' y hy hw hd (ha : (x : ℕ) ≤ y) => ?_⟩
    refine Nat.lt_of_le_of_ne ha fun he => hx ?_
    -- the process at which the wakeup looks does not sleep on its channel
    obtain rfl : x = y := Fin.ext he
    obtain rfl : k = k' := hw
    obtain ⟨hst, hsl⟩ := sleeping_of_dozes hI hy (by rw [hq₀]; simp [Point.locks])
      (by rw [hq₀]; rfl) hd
    exact ⟨hst, hT.chan x k (onChan_of_sleeps hsl)⟩
  | sleepChan =>
    exact ⟨α, .refl, h.still hq₀ rfl rfl rfl rfl rfl rfl (fun _ _ => Iff.rfl) (fun _ => Iff.rfl)
      fun _ _ _ _ _ => id⟩
  | sleepState =>
    refine ⟨α, .refl, h.quiet rfl rfl rfl (fun x hx => ?_) (by rw [hq₀]; rfl) (by rw [hq₀]; rfl)
      (fun k => ?_) (fun k => by rw [hq₀]; exact Iff.rfl) fun k x hw _ _ => ?_⟩
    · simp [Mem.setState, hx]
    · rw [Dozes, hq₀]
      simp [Point.dozes, Mem.setState]
    · rw [hq₀] at hw; exact hw.elim
  | sleepWoken =>
    refine ⟨α, .refl, h.quiet rfl rfl rfl (fun _ _ => rfl) (by rw [hq₀]; rfl) (by rw [hq₀]; rfl)
      (fun k => ?_) (fun k => by rw [hq₀]; exact Iff.rfl) fun k x hw _ _ => ?_⟩
    · rw [Dozes, hq₀, hrun]
      simp [Point.dozes]
    · rw [hq₀] at hw; exact hw.elim
  | @killWake p hp pid x hx =>
    obtain ⟨k, hsl⟩ := hT.sleeping x hx
    have hb := behind_of_sleeps hsl
    refine ⟨α.kill x, .silent .kill, h.rise hsl (hself hx) rfl rfl h.shared ?_ rfl
      (fun y hy => ?_) ?_ (by rw [hq₀]; rfl) (by rw [hq₀]; rfl)
      (fun _ => by rw [Dozes, hq₀]; exact Iff.rfl) (fun _ => by rw [hq₀]; exact Iff.rfl) ?_⟩
    · rw [Monitor.State.kill_killed, ← h.killed]; rfl
    · simp [Monitor.State.kill, hy]
    · simp [Monitor.State.kill, (h.fits x).ne_awake hb]
    · intro k' y _ hw _ _
      rw [hq₀] at hw; exact hw.elim
  | @killAwake p hp pid x hx =>
    refine ⟨α.kill x, .silent .kill, ?_⟩
    have hctx : (α.kill x).ctx = α.ctx := kill_ctx_of_asleep fun k hk => ?_
    · have h' : Refines (φ.store (φ.mem.setKilled x)) (α.kill x) := by
        refine h.setKilled rfl rfl rfl ?_ rfl rfl hctx
        rw [Monitor.State.kill_killed, ← h.killed]; rfl
      exact h'.still hq₀ rfl rfl rfl rfl rfl rfl (fun _ _ => Iff.rfl) (fun _ => Iff.rfl)
        fun _ _ _ _ _ => id
    · have hf := h.fits x
      rw [hk] at hf
      have hd := hf.dozes.1
      have hxt : x ≠ t := by
        rintro rfl; rw [hq₀] at hd; exact hd
      exact hx (sleeping_of_dozes hI hxt (by rw [hq₀]; simp [Point.locks]) (by rw [hq₀]; rfl) hd).1
  | yieldState =>
    refine ⟨α, .refl, h.quiet rfl rfl rfl (fun x hx => ?_) (by rw [hq₀]; rfl) (by rw [hq₀]; rfl)
      (fun k => by rw [Dozes, hq₀]; exact Iff.rfl) (fun k => by rw [hq₀]; exact Iff.rfl)
      fun k x hw _ _ => ?_⟩
    · simp [Mem.setState, hx]
    · rw [hq₀] at hw; exact hw.elim

theorem Scheds.follow (h : Refines φ α) {q₀ : Point B} (hq₀ : φ.pc t = q₀) (hs : Scheds q₀ q') :
    Refines ((φ.switch c (.releasing t)).goto t q') α := by
  cases hs with
  | sleep | yield =>
    exact h.still hq₀ rfl rfl rfl rfl rfl rfl (fun _ _ => Iff.rfl) (fun _ => Iff.rfl)
      fun _ _ _ _ _ => id

theorem dozes_congr (h : st = .sleeping ↔ st' = .sleeping) : q.dozes k st ↔ q.dozes k st' := by
  cases q <;> first | exact Iff.rfl | exact and_congr_right' h

omit [DecidableEq C] in
/-- A step of a scheduler: at most, it lets a process run that is runnable. -/
theorem Refines.scheduler (h : Refines φ α) (hpc : φ'.pc = φ.pc)
    (hm : φ'.mem = φ.mem ∨ ∃ p, φ.mem.state p = .runnable ∧ φ'.mem = φ.mem.setState p .running) :
    Refines φ' α := by
  have hst : ∀ x, φ'.mem.state x = .sleeping ↔ φ.mem.state x = .sleeping := by
    intro x
    rcases hm with hm | ⟨p, hp, hm⟩
    · rw [hm]
    · by_cases hx : x = p
      · subst hx; simp [hm, Mem.setState, hp]
      · simp [hm, Mem.setState, hx]
  have hmem : φ'.mem.shared = φ.mem.shared ∧ φ'.mem.killed = φ.mem.killed := by
    rcases hm with hm | ⟨p, -, hm⟩
    · rw [hm]; exact ⟨rfl, rfl⟩
    · rw [hm]; exact ⟨rfl, rfl⟩
  have hd : ∀ k x, Dozes φ' k x ↔ Dozes φ k x := fun k x => by
    rw [Dozes, hpc]; exact dozes_congr (hst x)
  refine ⟨hmem.1.trans h.shared, hmem.2.trans h.killed, fun x => ?_, fun w k x hw hx => ?_⟩
  · have hw : ∀ k, Waking φ' k ↔ Waking φ k := fun k => by rw [Waking, hpc]; exact Iff.rfl
    refine Fits.congr (W := Waking φ) ?_ hw
    rw [hpc]
    exact (h.fits x).goto rfl rfl fun k => dozes_congr (hst x)
  · rw [hpc] at hw ⊢
    exact h.ahead w k x hw ((hd k x).1 hx)

/-- **The monitor follows each step of the machine.** -/
theorem Refines.step (h : Refines φ α) (hI : (discipline B).Inv φ) (hT : Table φ)
    (hM : B.disc.Inv α) {a : Option (Fin n)} (hs : Step (code B) φ a φ') :
    ∃ α', Follows B α a α' ∧ Refines φ' α' := by
  cases hs with
  | acquire hc hi hfree => exact (Does.acquires hi).follow h hI hM hc rfl hfree
  | release hc hi _ => exact (Does.releases hi).follow h hM rfl
  | run hc hi => exact (Does.runs hi).follow h hI hT hc rfl
  | sched hc hi => exact ⟨α, .refl, (Does.scheds hi).follow h rfl⟩
  | schedAcquire _ _ => exact ⟨α, .refl, h.scheduler rfl (.inl rfl)⟩
  | schedRun _ hst => exact ⟨α, .refl, h.scheduler rfl (.inr ⟨_, hst, rfl⟩)⟩
  | schedSkip _ _ => exact ⟨α, .refl, h.scheduler rfl (.inl rfl)⟩
  | schedRelease _ _ => exact ⟨α, .refl, h.scheduler rfl (.inl rfl)⟩
  | interrupt _ => exact ⟨α, .refl, h.scheduler rfl (.inl rfl)⟩

/-! ## The start -/

omit [DecidableEq C] in
theorem Boots.refines (h : Boots α φ) (hα : B.disc.Start α) : Refines φ α := by
  refine ⟨h.shared, h.killed, fun x => ?_, fun w k x hw _ => ?_⟩
  · obtain ⟨hq, hpc⟩ := h.pc x
    rw [hpc, hα.awake x]
    exact .client rfl rfl
  · obtain ⟨hq, hpc⟩ := h.pc w
    rw [hpc] at hw; exact hw.elim

omit [DecidableEq C] in
theorem Boots.table (h : Boots α φ) : Table φ := by
  refine ⟨fun x k hk => ?_, fun x hx => ?_⟩
  · obtain ⟨hq, hpc⟩ := h.pc x
    rw [hpc] at hk; cases hk
  · rw [h.state x] at hx; cases hx

end OSLabs.Sleep
