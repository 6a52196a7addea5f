/-
  What wait finds.

  A process in wait holds wait_lock from the scan of the process table to the
  sleep, so what it knows of its children holds when it goes to sleep (`knows`).
  exit and reparent wake it up when this changes: no process sleeps in wait while a
  child of it is a zombie (`waits_blocked`).  `wait_result` is what wait returns.
-/
import OSLabs.Kernel.FamilyTree
import OSLabs.Lib.Tally

namespace OSLabs.Family

open Monitor

variable {N : ℕ} {init t p c : Fin N} {q q' : Point N} {m m' : Mem N} {σ σ' : FState N}
  {ok : FState N → Fin N → Prop} {pc : Fin N → Point N}

/-! ## What the scan knows -/

/-- What a process in wait knows of its children. -/
def Point.knows (t : Fin N) (m : Mem N) : Point N → Prop
  | .scan _ i havekids =>
    (havekids = true → ∃ c, m.parent c = some t) ∧
      (havekids = false → ∀ c : Fin N, c < i → m.parent c ≠ some t) ∧
      ∀ c : Fin N, c < i → m.parent c = some t → m.told c = false
  | .waitSleep _ => (∃ c, m.parent c = some t) ∧ ∀ c, m.parent c = some t → m.told c = false
  | _ => True

theorem knows_of_rescans (h : q.rescans) : q.knows t m := by
  cases q with
  | scan copies i havekids =>
    obtain ⟨rfl, rfl⟩ := h
    exact ⟨fun hk => (by cases hk), fun _ c hc => absurd hc (Nat.not_lt_zero c),
      fun c hc => absurd hc (Nat.not_lt_zero c)⟩
  | _ => exact h.elim

theorem knows_of_not_held (h : q.held = false) : q.knows t m := by
  cases q <;> trivial

theorem knows_congr (hp : m'.parent = m.parent) (ht : m'.told = m.told) (h : q.knows t m) :
    q.knows t m' := by
  cases q with
  | scan => simpa only [Point.knows, hp, ht] using h
  | waitSleep => simpa only [Point.knows, hp, ht] using h
  | _ => trivial

/-- A process that does not run or exit has not told its parent. -/
theorem Tree.told_eq_false (h : Tree init m pc) (hr : m.state c ≠ .runnable)
    (hz : m.state c ≠ .zombie) : m.told c = false := by
  by_contra ht
  rcases (h.points c).told.1 (by simpa using ht) with hs | hq
  · exact hz hs
  · exact hr ((h.points c).lives (Point.lives_of_tells hq))

/-- Without the lock, a process changes nothing that wait knows. -/
theorem Runs.frame (hr : Runs init t m q m' q') (hpc : pc t = q) (h : Tree init m pc)
    (hq : q.held = false) : m'.parent = m.parent ∧ m'.told = m.told := by
  cases hr with
  | setParent => cases hq
  | reparent => cases hq
  | tell => cases hq
  | reap => cases hq
  | @copyFail copied np =>
    have hu := (h.points t).makes np (by rw [hpc]; rfl)
    have hpar := (h.points t).unset np (by rw [hpc]; rfl) (by rw [hpc]; rfl)
    have htold := h.told_eq_false (c := np) (by rw [hu]; simp) (by rw [hu]; simp)
    exact ⟨Function.update_eq_self_iff.2 hpar.symm, Function.update_eq_self_iff.2 htold.symm⟩
  | _ => exact ⟨rfl, rfl⟩

/-- **A run keeps what wait knows.** -/
theorem Runs.knows (hr : Runs init t m q m' q') (hpc : pc t = q) (h : Tree init m pc)
    (hexcl : q.held = true → ∀ p ≠ t, (pc p).held = true → (pc p).rescans)
    (hk : q.knows t m) : q'.knows t m' := by
  cases hr with
  | @scanKid copies havekids i hp hz =>
    refine ⟨fun _ => ⟨i, hp⟩, fun hf => (by cases hf), fun c hc hpar => ?_⟩
    rcases Nat.lt_succ_iff_lt_or_eq.1 hc with hlt | he
    · exact hk.2.2 c hlt hpar
    · -- the child is no zombie, and does not become one while the lock is held
      obtain rfl : c = i := Fin.ext he
      by_contra ht
      rcases (h.points c).told.1 (by simpa using ht) with hs | hq
      · exact hz hs
      · have hct : c ≠ t := by
          rintro rfl; rw [hpc] at hq; cases hq
        have hrescan := hexcl rfl c hct
          (by generalize pc c = q₀ at hq; cases q₀ <;> first | rfl | cases hq)
        generalize pc c = q₀ at hq hrescan
        cases q₀ <;> first | exact hrescan.elim | cases hq
  | @scanNext copies havekids i hp =>
    refine ⟨hk.1, fun hf c hc => ?_, fun c hc hpar => ?_⟩
    · rcases Nat.lt_succ_iff_lt_or_eq.1 hc with hlt | he
      · exact hk.2.1 hf c hlt
      · rw [Fin.ext he]; exact hp
    · rcases Nat.lt_succ_iff_lt_or_eq.1 hc with hlt | he
      · exact hk.2.2 c hlt hpar
      · rw [Fin.ext he] at hpar; exact absurd hpar hp
  | sleeps hi => exact ⟨hk.1 rfl, fun c => hk.2.2 c (c.isLt.trans_le hi)⟩
  | _ => trivial

theorem Acquires.knows (h : Acquires q q') : q'.knows t m := by
  cases h with
  | wait => exact knows_of_rescans ⟨rfl, rfl⟩
  | _ => trivial

theorem Releases.knows (h : Releases q q') : q'.knows t m := by
  cases h <;> trivial

theorem Sleeps.knows {k : Option (Fin N)} (h : Sleeps t q k q') : q'.knows t m := by
  cases h; exact knows_of_rescans ⟨rfl, rfl⟩

theorem Wakes.knows {k : Option (Fin N)} (h : Wakes init q k q') : q'.knows t m := by
  cases h <;> trivial

/-- Each process in wait knows this of its children. -/
def Knows (σ : FState N) : Prop := ∀ t, (σ.pc t).knows t σ.mem

theorem Knows.step (h : Knows σ) (hr : Reach (code init) (Starts init) ok σ) {a : Option (Fin N)}
    (hs : Step (code init) σ a σ') : Knows σ' := by
  have hmove : ∀ {t : Fin N} {q : Point N}, σ'.mem = σ.mem → σ'.pc = Function.update σ.pc t q →
      q.knows t σ.mem → Knows σ' := by
    intro t q hm hpc hq t'
    rw [hm, hpc]
    by_cases htt : t' = t
    · subst htt; rw [Function.update_self]; exact hq
    · rw [Function.update_of_ne htt]; exact h t'
  cases hs with
  | acquire _ hi _ => exact hmove rfl rfl (Does.acquires hi).knows
  | release _ hi _ => exact hmove rfl rfl (Does.releases hi).knows
  | sleep _ hi _ => exact hmove rfl rfl (Does.sleeps hi).knows
  | wakeup _ hi => exact hmove rfl rfl (Does.wakes hi).knows
  | resume _ _ => exact h
  | kill => exact h
  | @run t m q hc hi =>
    have hruns := Does.runs hi
    have hT := tree_of_reach hr
    have hexcl : (σ.pc t).held = true → ∀ p ≠ t, (σ.pc p).held = true → (σ.pc p).rescans :=
      fun hq p hpt hp => rescans_of_held hr hc hq hpt hp
    intro t'
    by_cases htt : t' = t
    · subst htt
      rw [State.goto_pc, Function.update_self]
      exact hruns.knows rfl hT hexcl (h t')
    · rw [State.goto_pc, Function.update_of_ne htt]
      cases hh : (σ.pc t').held with
      | false => exact knows_of_not_held hh
      | true =>
        cases hq : (σ.pc t).held with
        | true => exact knows_of_rescans (hexcl hq t' htt hh)
        | false =>
          obtain ⟨hp, ht⟩ := hruns.frame rfl hT hq
          exact knows_congr hp ht (h t')

theorem knows_of_reach (h : Reach (code init) (Starts init) ok σ) : Knows σ :=
  h.invariant_of (I := Reach (code init) (Starts init) ok) (J := Knows) (fun _ hr => hr)
    (fun _ hi t => by rw [hi.pc]; trivial) fun _ _ _ hr hK hs _ => hK.step hr hs

/-! ## No lost wakeups -/

/-- Why a process sleeps in wait. -/
def Blocked (t : Fin N) (k : Option (Fin N)) (m : Mem N) : Prop :=
  k = some t ∧ (∃ c, m.parent c = some t) ∧ ∀ c, m.parent c = some t → m.told c = false

/-- The points at which a process still has to wake up another one. -/
def Point.owes (init : Fin N) : Point N → Option (Fin N) → Prop
  | .reparentWake _ _, k => k = some init
  | .exitWake _ parent, k => k = parent
  | _, _ => False

/-- The children of a process, and what they have told it, stay as they are. -/
theorem Blocked.congr {k : Option (Fin N)} (h : Blocked t k m)
    (hp : ∀ c, m'.parent c = some t ↔ m.parent c = some t)
    (ht : ∀ c, m.parent c = some t → m'.told c = m.told c) : Blocked t k m' := by
  obtain ⟨hk, ⟨c, hc⟩, hall⟩ := h
  refine ⟨hk, ⟨c, (hp c).2 hc⟩, fun c' hc' => ?_⟩
  rw [ht c' ((hp c').1 hc')]; exact hall c' ((hp c').1 hc')

/-- **A run leaves the others blocked, or is about to wake them up.** -/
theorem Runs.blocked (hr : Runs init t m q m' q') (hpc : pc t = q) (h : Tree init m pc)
    {t' : Fin N} (htt : t' ≠ t) {k : Option (Fin N)} (hb : Blocked t' k m) :
    Blocked t' k m' ∨ q'.owes init k := by
  have hset : ∀ {x y : Fin N}, y ≠ t' → m.parent x ≠ some t' →
      ∀ c, (m.setParent x y).parent c = some t' ↔ m.parent c = some t' := by
    intro x y hy hx c
    by_cases hc : c = x
    · subst hc
      simp only [Mem.setParent, Function.update_self, Option.some.injEq]
      exact ⟨fun he => absurd he hy, fun he => absurd he hx⟩
    · simp [Mem.setParent, hc]
  cases hr with
  | copyFail =>
    obtain ⟨hp, ht⟩ := Runs.frame (.copyFail) hpc h rfl
    exact .inl (hb.congr (fun c => by rw [hp]) fun c _ => by rw [ht])
  | @setParent np pid =>
    have hpar := (h.points t).unset np (by rw [hpc]; rfl) (by rw [hpc]; rfl)
    exact .inl (hb.congr (hset (Ne.symm htt) (by rw [hpar]; simp)) fun _ _ => rfl)
  | @reparent status i hp =>
    by_cases hti : t' = init
    · subst hti; exact .inr hb.1
    · refine .inl (hb.congr (hset (Ne.symm hti) ?_) fun _ _ => rfl)
      rw [hp]
      exact fun he => htt (Option.some.inj he).symm
  | @tell status i hi =>
    by_cases hp : m.parent t = some t'
    · exact .inr (hb.1.trans hp.symm)
    · refine .inl (hb.congr (fun _ => Iff.rfl) fun c hc => ?_)
      have hct : c ≠ t := by
        rintro rfl; exact hp hc
      simp [Mem.tell, hct]
  | @reap copies havekids i hp hz =>
    have hne : ∀ c, m.parent c = some t' → c ≠ i := by
      rintro c hc rfl
      rw [hp] at hc; exact htt (Option.some.inj hc).symm
    refine .inl (hb.congr (fun c => ?_) fun c hc => ?_)
    · by_cases hc : c = i
      · subst hc
        simp only [Mem.reap, Mem.free, Function.update_self]
        exact ⟨fun he => (by cases he), fun he => absurd rfl (hne _ he)⟩
      · simp [Mem.reap, Mem.free, hc]
    · simp [Mem.reap, Mem.free, hne c hc]
  | _ => exact .inl (hb.congr (fun _ => Iff.rfl) fun _ _ => rfl)

theorem Runs.not_owes {k : Option (Fin N)} (h : Runs init t m q m' q') : ¬ q.owes init k := by
  cases h <;> exact id

theorem Releases.not_owes {k : Option (Fin N)} (h : Releases q q') : ¬ q.owes init k := by
  cases h <;> exact id

theorem Wakes.owes {k k' : Option (Fin N)} (h : Wakes init q k q') (ho : q.owes init k') :
    k' = k := by
  cases h with
  | reparent => exact ho
  | exit => exact ho
  | kill => exact ho.elim

def sleepers : Sleepers (discipline init)
    (fun σ => Reach (code init) (Starts init) ok σ) (fun _ _ => True) where
  blocked := Blocked
  owes := Point.owes init
  held {q k} ho := by cases q <;> first | rfl | exact ho.elim
  release _ hi _ := (Does.releases hi).not_owes
  run {σ t m q} hr hc hi t' k ht' := by
    have hruns := Does.runs hi
    have htt : t' ≠ t := by
      rintro rfl; rw [hc] at ht'; cases ht'
    exact ⟨hruns.blocked rfl (tree_of_reach hr) htt, fun ho => absurd ho hruns.not_owes⟩
  sleep {σ t k q} hr hc hi := by
    have hk := knows_of_reach hr t
    have hs := Does.sleeps hi
    generalize σ.pc t = q₀ at hs hk
    cases hs
    exact ⟨⟨rfl, hk⟩, fun _ => id⟩
  wakeup hi k' ho := .inl ((Does.wakes hi).owes ho)

/-- **No wakeup of wait is lost.**  While wait_lock is free, a process only sleeps in
    wait if it has a child, and none of its children is a zombie. -/
theorem waits_blocked (h : Reach (code init) (Starts init) ok σ) (hfree : σ.owner = none)
    {k : Option (Fin N)} (ht : σ.ctx t = .asleep k) :
    (∃ c, σ.mem.parent c = some t) ∧
      ∀ c, σ.mem.parent c = some t → σ.mem.state c ≠ .zombie := by
  have hb : Blocked t k σ.mem :=
    (sleepers.blocked_or_owed (fun _ hi => hi.start) (fun _ hr => hr)
      (h.mono fun _ _ _ => trivial)).blocked (inv_of_reach h) hfree ht
  refine ⟨hb.2.1, fun c hc hz => ?_⟩
  have := ((tree_of_reach h).points c).told.2 (.inl hz)
  rw [hb.2.2 c hc] at this; cases this

theorem waits_blocked_sleeping : ∃ σ : FState 2,
    Reach (code 0) (Starts 0) (fun _ _ => True) σ ∧
    σ.owner = none ∧ σ.ctx 0 = .asleep (some 0) ∧
    (∃ c, σ.mem.parent c = some 0) ∧
      ∀ c, σ.mem.parent c = some 0 → σ.mem.state c ≠ .zombie := by
  have hplay : (play (pick 0) (fun _ _ => true) (forkAndWait 0) (start (0 : Fin 2))).map
      (fun σ => (σ.owner, σ.ctx 0)) = some (none, .asleep (some 0)) := by decide +kernel
  obtain ⟨σ, hr, hf⟩ := reach_play hplay
  obtain ⟨ho, ht⟩ := Prod.mk.inj hf
  exact ⟨σ, hr, ho, ht, waits_blocked hr ho ht⟩

/-! ## What wait returns -/

/-- The pids and statuses of the processes that `t` has reaped. -/
def Mem.reapedBy (m : Mem N) (t : Fin N) : List (Int32 × Int32) :=
  (m.waits.filter fun w => w.1 = t).map Prod.snd

/-- The wait that `t` called in `m₀` is about to return `r`. -/
def Mem.result (m₀ m : Mem N) (t : Fin N) (copies : Bool) (r : Int32) : Prop :=
  (∃ status, m.reapedBy t = m₀.reapedBy t ++ [(r, status)]) ∨
    r = -1 ∧ m.reapedBy t = m₀.reapedBy t ∧
      (copies = false ∨ m.killed t = true ∨ ∀ c, m.parent c ≠ some t)

/-- The argument of the wait in which a process is. -/
def Point.waiting : Point N → Option Bool
  | .wait copies => some copies
  | .scan copies _ _ => some copies
  | .waitSleep copies => some copies
  | .waitRelease copies _ => some copies
  | .waitReturn copies _ => some copies
  | _ => none

/-- What a process in wait has reaped since it called wait in `m₀`. -/
def Point.reaps (t : Fin N) (m₀ m : Mem N) : Point N → Prop
  | .waitRelease copies r => m₀.result m t copies r
  | .waitReturn _ r => (∃ status, m.reapedBy t = m₀.reapedBy t ++ [(r, status)]) ∨
      r = -1 ∧ m.reapedBy t = m₀.reapedBy t
  | _ => m.reapedBy t = m₀.reapedBy t

/-- The process is in the wait that it called in `m₀`. -/
structure Waits (t : Fin N) (copies : Bool) (m₀ : Mem N) (q : Point N) (m : Mem N) : Prop where
  waiting : q.waiting = some copies
  reaps : q.reaps t m₀ m

variable {m₀ : Mem N} {copies : Bool}

theorem Runs.waits (hr : Runs init t m q m' q') (h : Waits t copies m₀ q m) (hk : q.knows t m) :
    q' = .user ∨ Waits t copies m₀ q' m' := by
  obtain ⟨hw, hreaps⟩ := h
  cases hr with
  | @reap _ _ i _ _ =>
    refine .inr ⟨hw, .inl ⟨m.xstate i, ?_⟩⟩
    rw [← show m.reapedBy t = m₀.reapedBy t from hreaps]
    simp [Mem.reapedBy, Mem.reap, Mem.free, List.filter_append]
  | copyoutFails => cases hw; exact .inr ⟨rfl, .inr ⟨rfl, hreaps, .inl rfl⟩⟩
  | scanKid => exact .inr ⟨hw, hreaps⟩
  | scanNext => exact .inr ⟨hw, hreaps⟩
  | waitFails hi hor =>
    refine .inr ⟨hw, .inr ⟨rfl, hreaps, .inr ?_⟩⟩
    rcases hor with hf | hkl
    · exact .inr fun c => hk.2.1 hf c (c.isLt.trans_le hi)
    · exact .inl hkl
  | sleeps => exact .inr ⟨hw, hreaps⟩
  | waitReturn => exact .inl rfl
  | _ => cases hw

theorem Acquires.waits (h : Acquires q q') (hq : Waits t copies m₀ q m) :
    Waits t copies m₀ q' m := by
  obtain ⟨hw, hreaps⟩ := hq
  cases h with
  | wait => exact ⟨hw, hreaps⟩
  | _ => cases hw

theorem Releases.waits (h : Releases q q') (hq : Waits t copies m₀ q m) :
    Waits t copies m₀ q' m := by
  obtain ⟨hw, hreaps⟩ := hq
  cases h with
  | wait => exact ⟨hw, hreaps.imp_right fun hr => ⟨hr.1, hr.2.1⟩⟩
  | _ => cases hw

theorem Sleeps.waits {k : Option (Fin N)} (h : Sleeps t q k q') (hq : Waits t copies m₀ q m) :
    Waits t copies m₀ q' m := by
  obtain ⟨hw, hreaps⟩ := hq
  cases h; exact ⟨hw, hreaps⟩

theorem Wakes.waits {k : Option (Fin N)} (h : Wakes init q k q') (hq : Waits t copies m₀ q m) :
    Waits t copies m₀ q' m := by
  obtain ⟨hw, -⟩ := hq
  cases h <;> cases hw

/-- A process that lives stays killed. -/
theorem Runs.killed (hr : Runs init t m q m' q') (hpc : pc t = q) (h : Tree init m pc)
    (hs : m.state p = .runnable) (hk : m.killed p = true) : m'.killed p = true := by
  have hfree : ∀ x, m.state x ≠ .runnable → Function.update m.killed x false p = true := by
    intro x hx
    rw [Function.update_of_ne]
    · exact hk
    · rintro rfl; exact hx hs
  cases hr with
  | @copyFail copied np =>
    refine hfree np ?_
    rw [(h.points t).makes np (by rw [hpc]; rfl)]; simp
  | reap _ hz => exact hfree _ (by rw [hz]; simp)
  | @setKilled pid i j =>
    simp only [Mem.setKilled, Function.update_apply, hk, ite_self]
  | _ => exact hk

/-- Nobody reaps for another process. -/
theorem Runs.reapedBy (hr : Runs init t m q m' q') (hpt : p ≠ t) :
    m'.reapedBy p = m.reapedBy p := by
  cases hr with
  | reap => simp [Mem.reapedBy, Mem.reap, Mem.free, List.filter_append, Ne.symm hpt]
  | _ => rfl

/-- What others do does not change what a process has reaped; while it holds wait_lock,
    its children stay. -/
theorem Point.reaps_congr (hw : m'.reapedBy t = m.reapedBy t)
    (hk : m.killed t = true → m'.killed t = true)
    (hp : ∀ b r, q = .waitRelease b r → m'.parent = m.parent) (h : q.reaps t m₀ m) :
    q.reaps t m₀ m' := by
  cases q with
  | waitRelease =>
    refine h.imp (fun ⟨status, hs⟩ => ⟨status, hw.trans hs⟩) fun ⟨hr, hs, hor⟩ =>
      ⟨hr, hw.trans hs, hor.imp_right fun hor => hor.imp hk fun hn => ?_⟩
    rwa [hp _ _ rfl]
  | waitReturn =>
    exact h.imp (fun ⟨status, hs⟩ => ⟨status, hw.trans hs⟩) fun ⟨hr, hs⟩ => ⟨hr, hw.trans hs⟩
  | _ => exact hw.trans h

/-- **The others do not change what a wait has reaped.** -/
theorem Runs.waits_other {u : Fin N} (hr : Runs init u σ.mem (σ.pc u) m' q')
    (hσ : Reach (code init) (Starts init) ok σ) (htu : t ≠ u) (hc : σ.ctx u = .awake)
    (h : Waits t copies m₀ (σ.pc t) σ.mem) : Waits t copies m₀ (σ.pc t) m' := by
  have hT := tree_of_reach hσ
  have hlives : (σ.pc t).lives = true := by
    have := h.waiting
    generalize σ.pc t = q₀ at this
    cases q₀ <;> first | rfl | cases this
  refine ⟨h.waiting, Point.reaps_congr (hr.reapedBy htu)
    (hr.killed rfl hT ((hT.points t).lives hlives)) (fun b r ht => ?_) h.reaps⟩
  -- wait_lock is its own at the end of wait
  have hq : (σ.pc u).held = false := by
    by_contra hq
    have hrescan := rescans_of_held hσ hc (by simpa using hq) htu
      (show (σ.pc t).held = true by rw [show σ.pc t = _ from ht]; rfl)
    rw [show σ.pc t = _ from ht] at hrescan
    exact hrescan
  exact (hr.frame rfl hT hq).1

/-- The process makes no call. -/
def Within (t : Fin N) (σ : FState N) (t' : Fin N) : Prop := t' = t → σ.pc t ≠ .user

/-- **What holds of a process in a call**: its own steps keep it, up to the return, and
    those of the others. -/
theorem point_of_within {J : Point N → Mem N → Prop} {σ₀ : FState N}
    (h : Reach (code init) (Starts init) ok σ₀)
    (hcall : Reach (code init) (· = σ₀) (Within t) σ) (h₀ : J (σ₀.pc t) σ₀.mem)
    (hacquires : ∀ q q' m, Acquires q q' → J q m → J q' m)
    (hreleases : ∀ q q' m, Releases q q' → J q m → q' = .user ∨ J q' m)
    (hsleeps : ∀ q k q' m, Sleeps t q k q' → J q m → J q' m)
    (hwakes : ∀ q k q' m, Wakes init q k q' → J q m → J q' m)
    (hself : ∀ σ : FState N, Reach (code init) (Starts init) (fun _ _ => True) σ → ∀ m q',
      Runs init t σ.mem (σ.pc t) m q' → J (σ.pc t) σ.mem → q' = .user ∨ J q' m)
    (hother : ∀ σ : FState N, Reach (code init) (Starts init) (fun _ _ => True) σ → ∀ u m q',
      t ≠ u → σ.ctx u = .awake → Runs init u σ.mem (σ.pc u) m q' → J (σ.pc t) σ.mem → J (σ.pc t) m) :
    σ.pc t = .user ∨ J (σ.pc t) σ.mem := by
  have hall : Reach (code init) (Starts init) (fun _ _ => True) σ ∧
      (σ.pc t = .user ∨ J (σ.pc t) σ.mem) := by
    refine hcall.invariant (I := fun σ => Reach (code init) (Starts init) (fun _ _ => True) σ ∧
      (σ.pc t = .user ∨ J (σ.pc t) σ.mem)) ?_ ?_
    · rintro _ rfl
      exact ⟨h.mono fun _ _ _ => trivial, .inr h₀⟩
    rintro σ a σ' ⟨hr, hI⟩ hs hok
    refine ⟨.step hr hs fun _ _ => trivial, ?_⟩
    rcases hI with huser | hI
    · refine .inl ?_
      rwa [hs.pc_other]
      exact fun ha => hok t ha rfl huser
    -- a process moves on, without a change to the table
    have hmove : ∀ {u : Fin N} {q : Point N}, σ'.mem = σ.mem → σ'.pc = Function.update σ.pc u q →
        (u = t → q = .user ∨ J q σ.mem) → σ'.pc t = .user ∨ J (σ'.pc t) σ'.mem := by
      intro u q hm hpc hq
      rw [hm, hpc]
      by_cases htu : t = u
      · subst htu; rw [Function.update_self]; exact hq rfl
      · rw [Function.update_of_ne htu]; exact .inr hI
    cases hs with
    | acquire _ hi _ =>
      exact hmove rfl rfl (by rintro rfl; exact .inr (hacquires _ _ _ (Does.acquires hi) hI))
    | release _ hi _ =>
      exact hmove rfl rfl (by rintro rfl; exact hreleases _ _ _ (Does.releases hi) hI)
    | sleep _ hi _ =>
      exact hmove rfl rfl (by rintro rfl; exact .inr (hsleeps _ _ _ _ (Does.sleeps hi) hI))
    | wakeup _ hi =>
      exact hmove rfl rfl (by rintro rfl; exact .inr (hwakes _ _ _ _ (Does.wakes hi) hI))
    | resume _ _ => exact .inr hI
    | kill => exact .inr hI
    | @run u m q hc hi =>
      by_cases htu : t = u
      · subst htu
        rw [State.goto_pc, Function.update_self]
        exact hself σ hr _ _ (Does.runs hi) hI
      · rw [State.goto_pc, Function.update_of_ne htu]
        exact .inr (hother σ hr _ _ _ htu hc (Does.runs hi) hI)
  exact hall.2

/-- **What wait returns.**  In the run of a wait from `σ₀` on: when it is about to return
    `r`, it has reaped one process, with the pid `r`; or none, and `r` is -1, only if the
    process has no children, is killed, or the status could not be copied out. -/
theorem wait_result {σ₀ : FState N} (h : Reach (code init) (Starts init) ok σ₀)
    (hcall : Reach (code init) (· = σ₀) (Within t) σ) (h₀ : σ₀.pc t = .wait copies) :
    (∀ b r, σ.pc t = .waitRelease b r → σ₀.mem.result σ.mem t copies r) ∧
      ∀ b r, σ.pc t = .waitReturn b r →
        (∃ status, σ.mem.reapedBy t = σ₀.mem.reapedBy t ++ [(r, status)]) ∨
          r = -1 ∧ σ.mem.reapedBy t = σ₀.mem.reapedBy t := by
  have hJ : σ.pc t = .user ∨ Waits t copies σ₀.mem (σ.pc t) σ.mem := by
    refine point_of_within (J := Waits t copies σ₀.mem) h hcall ?_ ?_ ?_ ?_ ?_ ?_ ?_
    · rw [h₀]; exact ⟨rfl, rfl⟩
    · exact fun q q' m ha hq => ha.waits hq
    · exact fun q q' m hr hq => .inr (hr.waits hq)
    · exact fun q k q' m hs hq => hs.waits hq
    · exact fun q k q' m hw hq => hw.waits hq
    · exact fun σ hσ m q' hruns hq => hruns.waits hq (knows_of_reach hσ t)
    · exact fun σ hσ u m q' htu hc hruns hq => hruns.waits_other hσ htu hc hq
  rcases hJ with huser | ⟨hw, hreaps⟩
  · exact ⟨fun b r ht => (by rw [ht] at huser; cases huser),
      fun b r ht => (by rw [ht] at huser; cases huser)⟩
  · constructor
    · intro b r ht
      rw [ht] at hw hreaps
      cases hw
      exact hreaps
    · intro b r ht
      rw [ht] at hreaps
      exact hreaps

/-- The process forks, and calls wait. -/
def calling (p : Fin N) : List (Event (Fin N) Act) :=
  .go p (.fork true) :: List.replicate 8 (.go p .none) ++ [.go p (.wait true)]

/-- It sleeps in wait; its child `a` exits, and it reaps that. -/
def reaping (p a : Fin N) : List (Event (Fin N) Act) :=
  List.replicate 5 (.go p .none) ++ .go a (.exit 5) :: List.replicate 7 (.go a .none) ++
    .resume p :: List.replicate 2 (.go p .none)

theorem wait_result_reaping : ∃ σ₀ σ : FState 2, Reach (code 0) (Starts 0) (fun _ _ => True) σ₀ ∧
    Reach (code 0) (· = σ₀) (Within 0) σ ∧ σ₀.pc 0 = .wait true ∧ σ.pc 0 = .waitRelease true 2 ∧
      σ₀.mem.result σ.mem 0 true 2 := by
  have hplay : ((play (pick 0) (fun _ _ => true) (calling 0) (start (0 : Fin 2))).bind fun σ₀ =>
      (play (pick 0) (fun σ _ => (σ.pc 0).waiting.isSome) (reaping 0 1) σ₀).map fun σ =>
        (σ₀.pc 0, σ.pc 0)) = some (.wait true, .waitRelease true 2) := rfl
  have hrun : ∃ σ₀ σ, Reach (code 0) (Starts 0) (fun _ _ => True) σ₀ ∧
      Reach (code 0) (· = σ₀) (Within 0) σ ∧
      (σ₀.pc 0, σ.pc 0) = (.wait true, .waitRelease true 2) :=
    reach_of_plays (fun _ _ _ => trivial) (fun σ t hb _ hpc => by rw [hpc] at hb; cases hb)
      (fun _ _ _ _ _ _ hi => pick_does hi) ⟨rfl, fun _ => rfl, fun _ => rfl, rfl⟩ hplay
  obtain ⟨σ₀, σ, h₀, h, hpc⟩ := hrun
  obtain ⟨hpc₀, hpc⟩ := Prod.mk.inj hpc
  exact ⟨σ₀, σ, h₀, h, hpc₀, hpc, (wait_result h₀ h hpc₀).1 _ _ hpc⟩

end OSLabs.Family
