/-
  The tree of processes.

  `Acquires`, `Releases`, `Sleeps`, `Wakes` and `Runs` take `Does` apart.  `Tree` is
  the invariant of the process table: the parent of a process runs, and a process
  that runs or has exited has a parent, if it is not init.  It holds because exit
  gives the children to init in the same critical section of wait_lock in which the
  process becomes a zombie, and because a slot has one process that fills it, in
  fork, or empties it, in wait.
-/
import OSLabs.Kernel.Family

namespace OSLabs.Family

open Monitor

variable {N : ℕ} {init t p c : Fin N} {q q' : Point N} {m m' : Mem N} {σ σ' : FState N}
  {ok : FState N → Fin N → Prop}

/-! ## The instructions of each kind -/

inductive Acquires : Point N → Point N → Prop
  | adopt {np pid} : Acquires (.adopt np pid) (.setParent np pid)
  | exit {status} : Acquires (.exit status) (.reparent status 0)
  | wait {copies} : Acquires (.wait copies) (.scan copies 0 false)

inductive Releases : Point N → Point N → Prop
  | fork {np pid} : Releases (.setRelease np pid) (.start np pid)
  | exit : Releases .exitRelease .user
  | wait {copies r} : Releases (.waitRelease copies r) (.waitReturn copies r)

inductive Sleeps (t : Fin N) : Point N → Option (Fin N) → Point N → Prop
  | wait {copies} : Sleeps t (.waitSleep copies) (some t) (.scan copies 0 false)

inductive Wakes (init : Fin N) : Point N → Option (Fin N) → Point N → Prop
  | reparent {status i} :
      Wakes init (.reparentWake status i) (some init) (.reparent status (i + 1))
  | exit {status parent} : Wakes init (.exitWake status parent) parent (.exitZombie status)
  | kill {i} : Wakes init (.killWake i) (some i) (.killReturn 0)

inductive Runs (init t : Fin N) (m : Mem N) : Point N → Mem N → Point N → Prop
  | fork {copied} : m.state t = .runnable → Runs init t m .user m (.alloc copied 0)
  | exit {status} : m.state t = .runnable → t ≠ init → Runs init t m .user m (.exit status)
  | initExits : m.state t = .runnable → t = init → Runs init t m .user m .panic
  | wait {copies} : m.state t = .runnable → Runs init t m .user m (.wait copies)
  | kill {pid} : m.state t = .runnable → Runs init t m .user m (.kill pid 0)
  | alloc {copied i np} : m.state np = .unused →
      Runs init t m (.alloc copied i) (m.alloc np) (.copy copied np)
  | allocNext {copied i} : Runs init t m (.alloc copied i) m (.alloc copied (i + 1))
  | allocFail {copied i} : Runs init t m (.alloc copied i) m (.forkReturn (-1))
  | copy {copied np} : Runs init t m (.copy copied np) m (.adopt np (m.pid np))
  | copyFail {copied np} : Runs init t m (.copy copied np) (m.free np) (.forkReturn (-1))
  | setParent {np pid} :
      Runs init t m (.setParent np pid) (m.setParent np t) (.setRelease np pid)
  | start {np pid} : Runs init t m (.start np pid) (m.start np) (.forkReturn pid)
  | forkReturn {r} : Runs init t m (.forkReturn r) m .user
  | reparent {status} {i : Fin N} : m.parent i = some t →
      Runs init t m (.reparent status i) (m.setParent i init) (.reparentWake status i)
  | reparentNext {status} {i : Fin N} : m.parent i ≠ some t →
      Runs init t m (.reparent status i) m (.reparent status (i + 1))
  | tell {status i} : N ≤ i →
      Runs init t m (.reparent status i) (m.tell t) (.exitWake status (m.parent t))
  | exitZombie {status} : Runs init t m (.exitZombie status) (m.setZombie t status) .exitRelease
  | reap {copies havekids} {i : Fin N} : m.parent i = some t → m.state i = .zombie →
      Runs init t m (.scan copies i havekids) (m.reap t i) (.waitRelease copies (m.pid i))
  | copyoutFails {i havekids} : Runs init t m (.scan false i havekids) m (.waitRelease false (-1))
  | scanKid {copies havekids} {i : Fin N} : m.parent i = some t → m.state i ≠ .zombie →
      Runs init t m (.scan copies i havekids) m (.scan copies (i + 1) true)
  | scanNext {copies havekids} {i : Fin N} : m.parent i ≠ some t →
      Runs init t m (.scan copies i havekids) m (.scan copies (i + 1) havekids)
  | waitFails {copies i havekids} : N ≤ i → havekids = false ∨ m.killed t = true →
      Runs init t m (.scan copies i havekids) m (.waitRelease copies (-1))
  | sleeps {copies i} : N ≤ i → Runs init t m (.scan copies i true) m (.waitSleep copies)
  | waitReturn {copies r} : Runs init t m (.waitReturn copies r) m .user
  | setKilled {pid i j} : Runs init t m (.kill pid i) (m.setKilled j) (.killWake j)
  | killNext {pid i} : Runs init t m (.kill pid i) m (.kill pid (i + 1))
  | killFails {pid i} : Runs init t m (.kill pid i) m (.killReturn (-1))
  | killReturn {r} : Runs init t m (.killReturn r) m .user

theorem Does.acquires (h : Does init t q m (.acquire q')) : Acquires q q' := by
  cases h with
  | code h =>
    cases q with
    | adopt => cases h; exact .adopt
    | exit => cases h; exact .exit
    | wait => cases h; exact .wait
    | _ =>
      unfold exec at h
      dsimp only at h
      repeat' split at h
      all_goals cases h

theorem Does.releases (h : Does init t q m (.release q')) : Releases q q' := by
  cases h with
  | code h =>
    cases q with
    | setRelease => cases h; exact .fork
    | exitRelease => cases h; exact .exit
    | waitRelease => cases h; exact .wait
    | _ =>
      unfold exec at h
      dsimp only at h
      repeat' split at h
      all_goals cases h

theorem Does.sleeps {k : Option (Fin N)} (h : Does init t q m (.sleep k q')) :
    Sleeps t q k q' := by
  cases h with
  | code h =>
    cases q with
    | waitSleep => cases h; exact .wait
    | _ =>
      unfold exec at h
      dsimp only at h
      repeat' split at h
      all_goals cases h

theorem Does.wakes {k : Option (Fin N)} (h : Does init t q m (.wakeup k q')) :
    Wakes init q k q' := by
  cases h with
  | code h =>
    cases q with
    | reparentWake => cases h; exact .reparent
    | exitWake => cases h; exact .exit
    | killWake => cases h; exact .kill
    | _ =>
      unfold exec at h
      dsimp only at h
      repeat' split at h
      all_goals cases h

theorem Does.runs (h : Does init t q m (.run m' q')) : Runs init t m q m' q' := by
  cases h with
  | fork hs => exact .fork hs
  | exit hs ht => exact .exit hs ht
  | initExits hs ht => exact .initExits hs ht
  | wait hs => exact .wait hs
  | kill hs => exact .kill hs
  | code h =>
    cases q with
    | alloc =>
      simp only [exec] at h
      split_ifs at h with hi hs
      · cases h; exact .alloc hs
      · cases h; exact .allocNext
      · cases h; exact .allocFail
    | copy =>
      simp only [exec] at h
      split_ifs at h with hc
      · cases h; exact .copy
      · cases h; exact .copyFail
    | setParent => cases h; exact .setParent
    | start => cases h; exact .start
    | forkReturn => cases h; exact .forkReturn
    | reparent status i =>
      simp only [exec] at h
      split_ifs at h with hi hp
      · cases h; exact .reparent (i := ⟨i, hi⟩) hp
      · cases h; exact .reparentNext (i := ⟨i, hi⟩) hp
      · cases h; exact .tell (not_lt.1 hi)
    | exitZombie => cases h; exact .exitZombie
    | scan copies i havekids =>
      simp only [exec] at h
      split_ifs at h with hi hp hs hc hk
      · cases h; exact .reap (i := ⟨i, hi⟩) hp hs
      · cases h
        rw [Bool.not_eq_true] at hc
        subst hc; exact .copyoutFails
      · cases h; exact .scanKid (i := ⟨i, hi⟩) hp hs
      · cases h; exact .scanNext (i := ⟨i, hi⟩) hp
      · cases h; exact .waitFails (not_lt.1 hi) hk
      · cases h
        rw [not_or, Bool.not_eq_false] at hk
        obtain ⟨hk, -⟩ := hk
        subst hk; exact .sleeps (not_lt.1 hi)
    | waitReturn => cases h; exact .waitReturn
    | kill =>
      simp only [exec] at h
      split_ifs at h
      · cases h; exact .setKilled
      · cases h; exact .killNext
      · cases h; exact .killFails
    | killReturn => cases h; exact .killReturn
    | _ => cases h

/-! ## The lock -/

/-- wait_lock is held at these points. -/
def Point.held : Point N → Bool
  | .setParent _ _ => true
  | .setRelease _ _ => true
  | .reparent _ _ => true
  | .reparentWake _ _ => true
  | .exitWake _ _ => true
  | .exitZombie _ => true
  | .exitRelease => true
  | .scan _ _ _ => true
  | .waitSleep _ => true
  | .waitRelease _ _ => true
  | _ => false

theorem Runs.held (h : Runs init t m q m' q') : q'.held = q.held := by
  cases h <;> rfl

def discipline (init : Fin N) : Discipline (code init) where
  held := Point.held
  acquire h := by cases Does.acquires h <;> exact ⟨rfl, rfl⟩
  release h := by cases Does.releases h <;> exact ⟨rfl, rfl⟩
  run h := (Does.runs h).held
  sleep h := by cases Does.sleeps h; exact ⟨rfl, rfl⟩
  wakeup h := by cases Does.wakes h <;> rfl

theorem Starts.start (h : Starts init σ) : (discipline init).Start σ :=
  ⟨h.owner, h.ctx, fun t => by rw [h.pc]; rfl⟩

theorem inv_of_reach (h : Reach (code init) (Starts init) ok σ) :
    (discipline init).Inv σ :=
  (discipline init).inv_of_reach (fun _ hi => hi.start) h

/-- A process only sleeps, or waits for the lock behind a sleep, at the head of the
    scan in wait. -/
def Point.rescans : Point N → Prop
  | .scan _ i havekids => i = 0 ∧ havekids = false
  | _ => False

theorem rescans_of_reach (h : Reach (code init) (Starts init) ok σ) (t : Fin N)
    (ht : σ.ctx t ≠ .awake) : (σ.pc t).rescans := by
  refine h.parked (A := Point.rescans) (fun σ hi => hi.ctx) (fun t q m b k q' hi => ?_) t ht
  cases Does.sleeps hi; exact ⟨rfl, rfl⟩

/-- While a process holds the lock, another one at such a point has been asleep. -/
theorem rescans_of_held (h : Reach (code init) (Starts init) ok σ) (hc : σ.ctx t = .awake)
    (hq : (σ.pc t).held = true) (hpt : p ≠ t) (hp : (σ.pc p).held = true) :
    (σ.pc p).rescans := by
  refine rescans_of_reach h p fun ha => hpt ?_
  exact (inv_of_reach h).exclusive ha hc hp hq

/-! ## The invariant -/

/-- The process runs at these points. -/
def Point.lives : Point N → Bool
  | .user => false
  | .exitRelease => false
  | _ => true

/-- The slot that the process fills in fork. -/
def Point.makes : Point N → Option (Fin N)
  | .copy _ np => some np
  | .adopt np _ => some np
  | .setParent np _ => some np
  | .setRelease np _ => some np
  | .start np _ => some np
  | _ => none

/-- The child has got its parent. -/
def Point.adopted : Point N → Bool
  | .setRelease _ _ => true
  | .start _ _ => true
  | _ => false

/-- The process is in exit. -/
def Point.exits : Point N → Bool
  | .exit _ => true
  | .reparent _ _ => true
  | .reparentWake _ _ => true
  | .exitWake _ _ => true
  | .exitZombie _ => true
  | .exitRelease => true
  | _ => false

/-- The process has given this child to init. -/
def Point.gave : Point N → Fin N → Prop
  | .reparent _ i, c => c < i
  | .reparentWake _ i, c => c ≤ i
  | .exitWake _ _, _ => True
  | .exitZombie _, _ => True
  | .exitRelease, _ => True
  | _, _ => False

/-- The process has told its parent that it exits. -/
def Point.tells : Point N → Bool
  | .exitWake _ _ => true
  | .exitZombie _ => true
  | _ => false

/-- What holds of a process at each point. -/
structure At (init : Fin N) (m : Mem N) (t : Fin N) (q : Point N) : Prop where
  lives : q.lives = true → m.state t = .runnable
  exits : q.exits = true → t ≠ init
  gone : q = .exitRelease → m.state t = .zombie
  makes : ∀ np, q.makes = some np → m.state np = .used
  unset : ∀ np, q.makes = some np → q.adopted = false → m.parent np = none
  adopted : ∀ np, q.makes = some np → q.adopted = true → m.parent np = some t
  gave : ∀ c, q.gave c → m.parent c ≠ some t
  told : m.told t = true ↔ m.state t = .zombie ∨ q.tells = true

/-- **The invariant of the process table.** -/
structure Tree (init : Fin N) (m : Mem N) (pc : Fin N → Point N) : Prop where
  points : ∀ t, At init m t (pc t)
  makes_unique : ∀ t t' np, (pc t).makes = some np → (pc t').makes = some np → t = t'
  root : m.state init = .runnable
  unused : ∀ c, m.state c = .unused → m.parent c = none
  parent : ∀ c p, m.parent c = some p → m.state p = .runnable
  child : ∀ c, m.state c = .runnable ∨ m.state c = .zombie → c ≠ init →
    ∃ p, m.parent c = some p

theorem Point.lives_of_tells (h : q.tells = true) : q.lives = true := by
  cases q <;> first | rfl | cases h

/-! ## What the others see -/

namespace At

theorem congr (h : At init m t q) (hs : m'.state = m.state) (hp : m'.parent = m.parent)
    (ht : m'.told = m.told) : At init m' t q := by
  obtain ⟨h₁, h₂, h₃, h₄, h₅, h₆, h₇, h₈⟩ := h
  exact ⟨hs ▸ h₁, h₂, hs ▸ h₃, hs ▸ h₄, hp ▸ h₅, hp ▸ h₆, hp ▸ h₇, hs ▸ ht ▸ h₈⟩

/-- The state of one process changes, that is not alive before, and not a zombie
    before or behind this. -/
theorem setState (h : At init m t q) {s : ProcState} (hs : m'.state = Function.update m.state c s)
    (hp : m'.parent = m.parent) (ht : m'.told = m.told) (hr : m.state c ≠ .runnable)
    (hz : m.state c ≠ .zombie) (hsz : s ≠ .zombie) (hmakes : q.makes ≠ some c) :
    At init m' t q := by
  have hne : ∀ x, m.state x = .runnable → x ≠ c := by
    rintro x hx rfl; exact hr hx
  constructor
  · intro hl
    rw [hs, Function.update_of_ne (hne t (h.lives hl))]; exact h.lives hl
  · exact h.exits
  · intro hq
    have hzt := h.gone hq
    have htc : t ≠ c := by
      rintro rfl; exact hz hzt
    rw [hs, Function.update_of_ne htc]; exact hzt
  · intro np hnp
    have hnc : np ≠ c := by
      rintro rfl; exact hmakes hnp
    rw [hs, Function.update_of_ne hnc]; exact h.makes np hnp
  · rw [hp]; exact h.unset
  · rw [hp]; exact h.adopted
  · rw [hp]; exact h.gave
  · rw [ht, h.told, hs]
    by_cases htc : t = c
    · subst htc
      rw [Function.update_self]
      simp only [hz, hsz]
    · rw [Function.update_of_ne htc]

theorem alloc (h : At init m t q) {np : Fin N} (hu : m.state np = .unused) :
    At init (m.alloc np) t q := by
  refine h.setState (s := .used) rfl rfl rfl (by simp [hu]) (by simp [hu]) (by simp) fun hm => ?_
  have := h.makes np hm
  rw [hu] at this; cases this

theorem start (h : At init m t q) {np : Fin N} (hu : m.state np = .used)
    (hmakes : q.makes ≠ some np) : At init (m.start np) t q :=
  h.setState (s := .runnable) rfl rfl rfl (by simp [hu]) (by simp [hu]) (by simp) hmakes

/-- A slot is emptied that no process makes, and whose process is behind exit. -/
theorem free (h : At init m t q) (hr : m.state c ≠ .runnable) (hmakes : q.makes ≠ some c)
    (hgone : t = c → q ≠ .exitRelease) : At init (m.free c) t q := by
  have hpar : ∀ x, (m.free c).parent x = if x = c then none else m.parent x := by
    intro x; simp only [Mem.free, Function.update_apply]
  have hlive : t = c → q.lives = false := by
    rintro rfl
    by_contra hl
    exact hr (h.lives (by simpa using hl))
  constructor
  · intro hl
    have htc : t ≠ c := fun htc => by
      rw [hlive htc] at hl; cases hl
    simpa [Mem.free, htc] using h.lives hl
  · exact h.exits
  · intro hq
    have htc : t ≠ c := fun htc => hgone htc hq
    simpa [Mem.free, htc] using h.gone hq
  · intro np hnp
    have hnc : np ≠ c := by
      rintro rfl; exact hmakes hnp
    simpa [Mem.free, hnc] using h.makes np hnp
  · intro np hnp ha
    rw [hpar, h.unset np hnp ha, ite_self]
  · intro np hnp ha
    have hnc : np ≠ c := by
      rintro rfl; exact hmakes hnp
    rw [hpar, if_neg hnc]; exact h.adopted np hnp ha
  · intro x hx
    rw [hpar]
    split_ifs
    · simp
    · exact h.gave x hx
  · by_cases htc : t = c
    · have hq : q.tells = false := by
        by_contra ht
        have := Point.lives_of_tells (q := q) (by simpa using ht)
        rw [hlive htc] at this; cases this
      simp [Mem.free, htc, hq]
    · simpa [Mem.free, htc] using h.told

/-- A process gets a parent, that no other process makes, and that this one has
    not given away. -/
theorem setParent (h : At init m t q)
    (hmakes : ∀ np, q.makes = some np → np = c → q.adopted = true ∧ t = p)
    (hgave : q.gave c → t ≠ p) : At init (m.setParent c p) t q := by
  have hpar : ∀ x, (m.setParent c p).parent x = if x = c then some p else m.parent x := by
    intro x; simp only [Mem.setParent, Function.update_apply]
  refine ⟨h.lives, h.exits, h.gone, h.makes, fun np hnp ha => ?_, fun np hnp ha => ?_,
    fun x hx => ?_, h.told⟩
  · have hnc : np ≠ c := fun hnc => by
      rw [(hmakes np hnp hnc).1] at ha; cases ha
    rw [hpar, if_neg hnc]; exact h.unset np hnp ha
  · rw [hpar]
    split_ifs with hnc
    · rw [(hmakes np hnp hnc).2]
    · exact h.adopted np hnp ha
  · rw [hpar]
    split_ifs with hxc
    · subst hxc
      exact fun he => hgave hx (Option.some.inj he).symm
    · exact h.gave x hx

theorem tell (h : At init m p q) (hpt : p ≠ t) : At init (m.tell t) p q :=
  ⟨h.lives, h.exits, h.gone, h.makes, h.unset, h.adopted, h.gave,
    by simpa [Mem.tell, hpt] using h.told⟩

theorem setZombie (h : At init m p q) (hpt : p ≠ t) (hr : m.state t = .runnable) {status : Int32} :
    At init (m.setZombie t status) p q := by
  refine ⟨?_, h.exits, ?_, fun np hnp => ?_, h.unset, h.adopted, h.gave, ?_⟩
  · simpa [Mem.setZombie, hpt] using h.lives
  · simpa [Mem.setZombie, hpt] using h.gone
  · have hu := h.makes np hnp
    have hnt : np ≠ t := by
      rintro rfl; rw [hu] at hr; cases hr
    simpa [Mem.setZombie, hnt] using hu
  · simpa [Mem.setZombie, hpt] using h.told

/-- The process moves on, and does not change the table. -/
theorem goto (h : At init m t q) (hlives : q'.lives = true → m.state t = .runnable)
    (hexits : q'.exits = true → t ≠ init) (hgone : q' ≠ .exitRelease)
    (hmakes : ∀ np, q'.makes = some np → q.makes = some np ∧ q'.adopted = q.adopted)
    (hgave : ∀ x, q'.gave x → m.parent x ≠ some t) (htells : q'.tells = q.tells) :
    At init m t q' := by
  refine ⟨hlives, hexits, fun hq => absurd hq hgone, fun np hnp => h.makes np (hmakes np hnp).1,
    fun np hnp ha => ?_, fun np hnp ha => ?_, hgave, ?_⟩
  · exact h.unset np (hmakes np hnp).1 ((hmakes np hnp).2 ▸ ha)
  · exact h.adopted np (hmakes np hnp).1 ((hmakes np hnp).2 ▸ ha)
  · rw [htells]; exact h.told

end At

/-! ## The invariant is kept -/

section
variable {pc : Fin N → Point N}

/-- The process `t` moves on; the others see what they have to. -/
theorem Tree.move (h : Tree init m pc) (hself : At init m' t q')
    (hother : ∀ t' ≠ t, At init m' t' (pc t'))
    (hmakes : ∀ t' ≠ t, ∀ np, q'.makes = some np → (pc t').makes ≠ some np)
    (hroot : m'.state init = .runnable) (hunused : ∀ c, m'.state c = .unused → m'.parent c = none)
    (hparent : ∀ c p, m'.parent c = some p → m'.state p = .runnable)
    (hchild : ∀ c, m'.state c = .runnable ∨ m'.state c = .zombie → c ≠ init →
      ∃ p, m'.parent c = some p) : Tree init m' (Function.update pc t q') := by
  refine ⟨fun t' => ?_, fun t₁ t₂ np h₁ h₂ => ?_, hroot, hunused, hparent, hchild⟩
  · by_cases htt : t' = t
    · subst htt; rw [Function.update_self]; exact hself
    · rw [Function.update_of_ne htt]; exact hother t' htt
  · by_cases ht₁ : t₁ = t <;> by_cases ht₂ : t₂ = t
    · rw [ht₁, ht₂]
    · rw [ht₁, Function.update_self] at h₁
      rw [Function.update_of_ne ht₂] at h₂
      exact absurd h₂ (hmakes t₂ ht₂ np h₁)
    · rw [ht₂, Function.update_self] at h₂
      rw [Function.update_of_ne ht₁] at h₁
      exact absurd h₁ (hmakes t₁ ht₁ np h₂)
    · rw [Function.update_of_ne ht₁] at h₁
      rw [Function.update_of_ne ht₂] at h₂
      exact h.makes_unique t₁ t₂ np h₁ h₂

/-- Only the process itself moves on. -/
theorem Tree.goto (h : Tree init m pc) (hself : At init m t q')
    (hmakes : ∀ np, q'.makes = some np → (pc t).makes = some np) :
    Tree init m (Function.update pc t q') :=
  h.move hself (fun t' _ => h.points t')
    (fun _ htt np hnp hm => htt (h.makes_unique _ _ np hm (hmakes np hnp)))
    h.root h.unused h.parent h.child

/-- allocproc takes an unused slot. -/
theorem Tree.alloc (h : Tree init m pc) {np : Fin N} {copied : Bool}
    (hpc : (pc t).lives = true) (htells : (pc t).tells = false) (hu : m.state np = .unused) :
    Tree init (m.alloc np) (Function.update pc t (.copy copied np)) := by
  have hne : ∀ {x s}, m.state x = s → s ≠ .unused → x ≠ np := by
    rintro x s hx hs rfl; exact hs (hx.symm.trans hu)
  have hst : ∀ x, (m.alloc np).state x = if x = np then .used else m.state x := by
    intro x; simp only [Mem.alloc, Function.update_apply]
  have hrun := (h.points t).lives hpc
  refine h.move ?_ (fun t' _ => (h.points t').alloc hu) (fun t' _ np' hnp hm => ?_) ?_
    (fun c hc => ?_) (fun c p hp => ?_) (fun c hc hci => ?_)
  · have ht := (h.points t).alloc hu
    refine ⟨fun _ => ?_, fun he => (by cases he), fun hq => (by cases hq), fun np' hnp => ?_,
      fun np' hnp _ => ?_, fun np' _ ha => (by cases ha), fun c hc => hc.elim, ?_⟩
    · rw [hst, if_neg (hne hrun (by simp))]; exact hrun
    · cases hnp; rw [hst, if_pos rfl]
    · cases hnp; exact h.unused _ hu
    · rw [ht.told, htells]; rfl
  · cases hnp
    have := (h.points t').makes np hm
    rw [hu] at this; cases this
  · rw [hst, if_neg (hne h.root (by simp))]; exact h.root
  · rw [hst] at hc
    split_ifs at hc
    exact h.unused c hc
  · have hrp := h.parent c p hp
    rw [hst, if_neg (hne hrp (by simp))]; exact hrp
  · rw [hst] at hc
    split_ifs at hc
    · simp at hc
    · exact h.child c hc hci

/-- A slot is emptied, by the process that made it or has found the zombie. -/
theorem Tree.free (h : Tree init m pc) (hself : At init (m.free c) t q') (hq : q'.makes = none)
    (hr : m.state c ≠ .runnable) (hmakes : ∀ t' ≠ t, (pc t').makes ≠ some c)
    (hgone : ∀ t' ≠ t, t' = c → pc t' ≠ .exitRelease) :
    Tree init (m.free c) (Function.update pc t q') := by
  have hst : ∀ x, (m.free c).state x = if x = c then .unused else m.state x := by
    intro x; simp only [Mem.free, Function.update_apply]
  have hpar : ∀ x, (m.free c).parent x = if x = c then none else m.parent x := by
    intro x; simp only [Mem.free, Function.update_apply]
  have hne : ∀ {x}, m.state x = .runnable → x ≠ c := by
    rintro x hx rfl; exact hr hx
  refine h.move hself (fun t' htt => (h.points t').free hr (hmakes t' htt) (hgone t' htt))
    (fun t' _ np hnp => by rw [hq] at hnp; cases hnp) ?_ (fun x hx => ?_) (fun x p hp => ?_)
    (fun x hx hxi => ?_)
  · rw [hst, if_neg (hne h.root)]; exact h.root
  · rw [hst] at hx
    rw [hpar]
    split_ifs at hx ⊢ with hxc
    · rfl
    · exact h.unused x hx
  · rw [hpar] at hp
    split_ifs at hp with hxc
    have hrp := h.parent x p hp
    rw [hst, if_neg (hne hrp)]; exact hrp
  · rw [hst] at hx
    rw [hpar]
    split_ifs at hx ⊢ with hxc
    · simp at hx
    · exact h.child x hx hxi

/-- A process gets a parent that runs. -/
theorem Tree.setParent (h : Tree init m pc) (hself : At init (m.setParent c p) t q')
    (hq : ∀ np, q'.makes = some np → (pc t).makes = some np)
    (hother : ∀ t' ≠ t, At init (m.setParent c p) t' (pc t')) (hp : m.state p = .runnable)
    (hu : m.state c ≠ .unused) : Tree init (m.setParent c p) (Function.update pc t q') := by
  have hpar : ∀ x, (m.setParent c p).parent x = if x = c then some p else m.parent x := by
    intro x; simp only [Mem.setParent, Function.update_apply]
  refine h.move hself hother
    (fun _ htt np hnp hm => htt (h.makes_unique _ _ np hm (hq np hnp)))
    h.root (fun x hx => ?_) (fun x p' hx => ?_) (fun x hx hxi => ?_)
  · have hxc : x ≠ c := by
      rintro rfl; exact hu hx
    rw [hpar, if_neg hxc]; exact h.unused x hx
  · rw [hpar] at hx
    split_ifs at hx
    · cases hx; exact hp
    · exact h.parent x p' hx
  · rw [hpar]
    split_ifs
    · exact ⟨p, rfl⟩
    · exact h.child x hx hxi

/-- The child starts to run. -/
theorem Tree.start (h : Tree init m pc) {np : Fin N} {pid r : Int32} (hpc : pc t = .start np pid) :
    Tree init (m.start np) (Function.update pc t (.forkReturn r)) := by
  have hm : (pc t).makes = some np := by rw [hpc]; rfl
  have hu := (h.points t).makes np hm
  have hst : ∀ x, (m.start np).state x = if x = np then .runnable else m.state x := by
    intro x; simp only [Mem.start, Function.update_apply]
  have hmono : ∀ {x}, m.state x = .runnable → (m.start np).state x = .runnable := by
    intro x hx
    rw [hst]; split_ifs <;> first | rfl | exact hx
  have hrun := (h.points t).lives (by rw [hpc]; rfl)
  have htnp : t ≠ np := by
    rintro rfl; rw [hu] at hrun; cases hrun
  refine h.move ?_ (fun t' htt => (h.points t').start hu fun hm' =>
    htt (h.makes_unique t' t np hm' hm)) (fun _ _ np' hnp => by cases hnp) (hmono h.root)
    (fun x hx => ?_) (fun x p hp => hmono (h.parent x p hp)) (fun x hx hxi => ?_)
  · refine ⟨fun _ => hmono hrun, fun he => (by cases he), fun hq => (by cases hq),
      fun np' hnp => (by cases hnp), fun np' hnp => (by cases hnp), fun np' hnp => (by cases hnp),
      fun x hx => hx.elim, ?_⟩
    have ht := (h.points t).told
    rw [hpc] at ht
    rw [hst, if_neg htnp]; exact ht
  · rw [hst] at hx
    split_ifs at hx
    exact h.unused x hx
  · by_cases hxn : x = np
    · subst hxn
      exact ⟨t, (h.points t).adopted x hm (by rw [hpc]; rfl)⟩
    · rw [hst, if_neg hxn] at hx
      exact h.child x hx hxi

/-- The process that has given its children away becomes a zombie. -/
theorem Tree.setZombie (h : Tree init m pc) {status : Int32} (hpc : pc t = .exitZombie status) :
    Tree init (m.setZombie t status) (Function.update pc t .exitRelease) := by
  have hrun := (h.points t).lives (by rw [hpc]; rfl)
  have hti := (h.points t).exits (by rw [hpc]; rfl)
  have hst : ∀ x, (m.setZombie t status).state x = if x = t then .zombie else m.state x := by
    intro x; simp only [Mem.setZombie, Function.update_apply]
  have hnone : ∀ x, m.parent x ≠ some t := fun x => (h.points t).gave x (by rw [hpc]; trivial)
  refine h.move ?_ (fun t' htt => (h.points t').setZombie htt hrun) (fun _ _ np hnp => by cases hnp)
    ?_ (fun x hx => ?_) (fun x p hp => ?_) (fun x hx hxi => ?_)
  · refine ⟨fun hl => (by cases hl), fun _ => hti, fun _ => ?_, fun np' hnp => (by cases hnp),
      fun np' hnp => (by cases hnp), fun np' hnp => (by cases hnp), fun x _ => hnone x, ?_⟩
    · rw [hst, if_pos rfl]
    · have ht := (h.points t).told.2 (.inr (by rw [hpc]; rfl))
      rw [hst, if_pos rfl]
      exact ⟨fun _ => .inl rfl, fun _ => ht⟩
  · rw [hst, if_neg (Ne.symm hti)]; exact h.root
  · rw [hst] at hx
    split_ifs at hx
    exact h.unused x hx
  · have hpt : p ≠ t := by
      rintro rfl; exact hnone x hp
    rw [hst, if_neg hpt]; exact h.parent x p hp
  · by_cases hxt : x = t
    · subst hxt; exact h.child x (.inl hrun) hxi
    · rw [hst, if_neg hxt] at hx
      exact h.child x hx hxi

/-- **A run keeps the invariant of the process table.** -/
theorem Runs.tree (hr : Runs init t m q m' q') (hpc : pc t = q) (h : Tree init m pc)
    (hexcl : q.held = true → ∀ t' ≠ t, pc t' ≠ .exitRelease) :
    Tree init m' (Function.update pc t q') := by
  have ht : At init m t q := by rw [← hpc]; exact h.points t
  have hsame : ∀ np, q.makes = some np → (pc t).makes = some np := fun np hnp => by
    rw [hpc]; exact hnp
  -- the process goes on, and the table stays as it is
  have hgoto : q.tells = q'.tells → (q'.lives = true → m.state t = .runnable) →
      (q'.exits = true → t ≠ init) → q' ≠ .exitRelease → q'.makes = none →
      (∀ x, q'.gave x → m.parent x ≠ some t) → Tree init m (Function.update pc t q') := by
    intro htells hl he hg hm hgv
    have hnone : ∀ np, q'.makes ≠ some np := fun np hnp => by rw [hm] at hnp; cases hnp
    exact h.goto (ht.goto hl he hg (fun np hnp => absurd hnp (hnone np)) hgv htells.symm)
      fun np hnp => absurd hnp (hnone np)
  cases hr with
  | fork hs | wait hs | kill hs =>
    exact hgoto rfl (fun _ => hs) (absurd · Bool.false_ne_true) (by simp) rfl fun _ => False.elim
  | exit hs hti => exact hgoto rfl (fun _ => hs) (fun _ => hti) (by simp) rfl fun _ => False.elim
  | initExits hs _ =>
    exact hgoto rfl (fun _ => hs) (absurd · Bool.false_ne_true) (by simp) rfl fun _ => False.elim
  | allocNext | allocFail | killNext | killFails | copyoutFails | scanKid | scanNext | waitFails |
      sleeps =>
    exact hgoto rfl (fun _ => ht.lives rfl) (absurd · Bool.false_ne_true) (by simp) rfl
      fun _ => False.elim
  | forkReturn | waitReturn | killReturn =>
    exact hgoto rfl (absurd · Bool.false_ne_true) (absurd · Bool.false_ne_true) (by simp) rfl
      fun _ => False.elim
  | alloc hu => exact h.alloc (by rw [hpc]; rfl) (by rw [hpc]; rfl) hu
  | copy =>
    exact h.goto (ht.goto (fun _ => ht.lives rfl) (absurd · Bool.false_ne_true) (by simp)
      (fun np hnp => ⟨hnp, rfl⟩) (fun _ => False.elim) rfl) hsame
  | @copyFail copied np =>
    have hu := ht.makes np rfl
    have hr : m.state np ≠ .runnable := by rw [hu]; simp
    have htnp : t ≠ np := by
      rintro rfl; exact hr (ht.lives rfl)
    have hone : ∀ t' ≠ t, (pc t').makes ≠ some np := fun t' htt hm' =>
      htt (h.makes_unique t' t np hm' (hsame np rfl))
    have hfail : At init m t (.forkReturn (-1)) :=
      ht.goto (fun _ => ht.lives rfl) (absurd · Bool.false_ne_true) (by simp)
        (fun np hnp => by cases hnp) (fun _ => False.elim) rfl
    refine h.free (hfail.free hr (by simp [Point.makes]) fun htn => absurd htn htnp) rfl hr hone
      fun t' _ htn => ?_
    rintro hq
    have := (h.points t').gone hq
    rw [htn, hu] at this; cases this
  | @setParent np pid =>
    have hu := ht.makes np rfl
    have hrun := ht.lives rfl
    refine h.setParent ?_ hsame (fun t' htt => (h.points t').setParent (fun np' hnp hc => ?_)
      fun _ => htt) hrun (by rw [hu]; simp)
    · refine ⟨fun _ => hrun, (absurd · Bool.false_ne_true), fun hq => (by cases hq),
        fun np' hnp => (by cases hnp; exact hu), fun np' _ ha => (by cases ha),
        fun np' hnp _ => ?_, fun _ => False.elim, ht.told⟩
      cases hnp; simp [Mem.setParent]
    · subst hc
      exact absurd (h.makes_unique t' t np' hnp (hsame np' rfl)) htt
  | start => exact h.start hpc
  | @reparent status i hp =>
    have hti := ht.exits rfl
    have hself : At init (m.setParent i init) t (.reparentWake status i) := by
      refine ⟨fun _ => ht.lives rfl, fun _ => hti, fun hq => (by cases hq),
        fun np hnp => (by cases hnp), fun np hnp => (by cases hnp), fun np hnp => (by cases hnp),
        fun x hx => ?_, ht.told⟩
      have hxi : (x : ℕ) ≤ i := hx
      by_cases hxe : x = i
      · subst hxe
        simpa [Mem.setParent] using Ne.symm hti
      · have hlt : (x : ℕ) < i := lt_of_le_of_ne hxi fun he => hxe (Fin.ext he)
        simpa [Mem.setParent, hxe] using ht.gave x hlt
    refine h.setParent hself (fun np hnp => by cases hnp)
      (fun t' htt => (h.points t').setParent (fun np hnp hni => ?_) fun hg => ?_) h.root
      fun hu => ?_
    · subst hni
      cases ha : (pc t').adopted with
      | false =>
        have := (h.points t').unset np hnp ha
        rw [hp] at this; cases this
      | true =>
        have := (h.points t').adopted np hnp ha
        rw [hp] at this; exact absurd (Option.some.inj this).symm htt
    · refine (h.points t').exits ?_
      generalize pc t' = q₀ at hg
      cases q₀ <;> first | rfl | exact hg.elim
    · have := h.unused i hu
      rw [hp] at this; cases this
  | @reparentNext status i hp =>
    refine hgoto rfl (fun _ => ht.lives rfl) (fun _ => ht.exits rfl) (by simp) rfl fun x hx => ?_
    have hxi : (x : ℕ) < i + 1 := hx
    rcases Nat.lt_succ_iff_lt_or_eq.1 hxi with hlt | he
    · exact ht.gave x hlt
    · rw [Fin.ext he]; exact hp
  | @tell status i hi =>
    refine h.move ?_ (fun t' htt => (h.points t').tell htt) (fun _ _ np hnp => by cases hnp)
      h.root h.unused h.parent h.child
    refine ⟨fun _ => ht.lives rfl, fun _ => ht.exits rfl, fun hq => (by cases hq),
      fun np hnp => (by cases hnp), fun np hnp => (by cases hnp), fun np hnp => (by cases hnp),
      fun x _ => ht.gave x (x.isLt.trans_le hi), ?_⟩
    simp [Mem.tell, Point.tells]
  | exitZombie => exact h.setZombie hpc
  | @reap copies havekids i hp hz =>
    have hr : m.state i ≠ .runnable := by rw [hz]; simp
    have hti : t ≠ i := by
      rintro rfl; exact hr (ht.lives rfl)
    have hfound : At init m t (.waitRelease copies (m.pid i)) :=
      ht.goto (fun _ => ht.lives rfl) (absurd · Bool.false_ne_true) (by simp)
        (fun np hnp => by cases hnp) (fun _ => False.elim) rfl
    have hfree : Tree init (m.free i) (Function.update pc t (.waitRelease copies (m.pid i))) := by
      refine h.free (hfound.free hr (by simp [Point.makes]) fun hte => absurd hte hti) rfl hr
        (fun t' _ hm => ?_) fun t' htt _ => hexcl rfl t' htt
      have := (h.points t').makes i hm
      rw [hz] at this; cases this
    exact ⟨fun t' => (hfree.points t').congr rfl rfl rfl, hfree.makes_unique, hfree.root,
      hfree.unused, hfree.parent, hfree.child⟩
  | setKilled =>
    have hkill : Tree init m (Function.update pc t (.killWake _)) :=
      hgoto rfl (fun _ => ht.lives rfl) (absurd · Bool.false_ne_true) (by simp) rfl
        fun _ => False.elim
    exact ⟨fun t' => (hkill.points t').congr rfl rfl rfl, hkill.makes_unique, hkill.root,
      hkill.unused, hkill.parent, hkill.child⟩

/-- The process goes on, and the table stays as it is. -/
theorem Tree.pass (h : Tree init m pc) (hpc : pc t = q)
    (hlives : q'.lives = true → q.lives = true) (hexits : q'.exits = true → q.exits = true)
    (hgone : q' ≠ .exitRelease)
    (hmakes : ∀ np, q'.makes = some np → q.makes = some np ∧ q'.adopted = q.adopted)
    (hgave : ∀ x, q'.gave x → q.gave x) (htells : q'.tells = q.tells) :
    Tree init m (Function.update pc t q') := by
  subst hpc
  have ht := h.points t
  exact h.goto (ht.goto (fun hl => ht.lives (hlives hl)) (fun he => ht.exits (hexits he)) hgone
    hmakes (fun x hx => ht.gave x (hgave x hx)) htells) fun np hnp => (hmakes np hnp).1

theorem Acquires.tree (ha : Acquires q q') (hpc : pc t = q) (h : Tree init m pc) :
    Tree init m (Function.update pc t q') := by
  cases ha with
  | adopt => exact h.pass hpc id id (by simp) (fun np hnp => ⟨hnp, rfl⟩) (fun _ => id) rfl
  | exit =>
    exact h.pass hpc id id (by simp) (fun np hnp => by cases hnp)
      (fun x hx => absurd hx (Nat.not_lt_zero x)) rfl
  | wait => exact h.pass hpc id id (by simp) (fun np hnp => by cases hnp) (fun _ => id) rfl

theorem Releases.tree (hr : Releases q q') (hpc : pc t = q) (h : Tree init m pc) :
    Tree init m (Function.update pc t q') := by
  cases hr with
  | fork => exact h.pass hpc id id (by simp) (fun np hnp => ⟨hnp, rfl⟩) (fun _ => id) rfl
  | exit =>
    exact h.pass hpc id (absurd · Bool.false_ne_true) (by simp) (fun np hnp => by cases hnp)
      (fun _ => False.elim) rfl
  | wait => exact h.pass hpc id id (by simp) (fun np hnp => by cases hnp) (fun _ => id) rfl

theorem Sleeps.tree {k : Option (Fin N)} (hs : Sleeps t q k q') (hpc : pc t = q)
    (h : Tree init m pc) : Tree init m (Function.update pc t q') := by
  cases hs
  exact h.pass hpc id id (by simp) (fun np hnp => by cases hnp) (fun _ => id) rfl

theorem Wakes.tree {k : Option (Fin N)} (hw : Wakes init q k q') (hpc : pc t = q)
    (h : Tree init m pc) : Tree init m (Function.update pc t q') := by
  cases hw with
  | reparent =>
    exact h.pass hpc id id (by simp) (fun np hnp => by cases hnp)
      (fun x hx => Nat.lt_succ_iff.1 hx) rfl
  | exit => exact h.pass hpc id id (by simp) (fun np hnp => by cases hnp) (fun _ => id) rfl
  | kill => exact h.pass hpc id id (by simp) (fun np hnp => by cases hnp) (fun _ => id) rfl

end

/-- **A step keeps the invariant of the process table.** -/
theorem Tree.step (h : Tree init σ.mem σ.pc) (hr : Reach (code init) (Starts init) ok σ)
    {a : Option (Fin N)} (hs : Step (code init) σ a σ') : Tree init σ'.mem σ'.pc := by
  cases hs with
  | acquire _ hi _ => exact (Does.acquires hi).tree rfl h
  | release _ hi _ => exact (Does.releases hi).tree rfl h
  | sleep _ hi _ => exact (Does.sleeps hi).tree rfl h
  | wakeup _ hi => exact (Does.wakes hi).tree rfl h
  | run hc hi =>
    refine (Does.runs hi).tree rfl h fun hq t' htt ht' => ?_
    rw [State.store_pc] at ht'
    have := rescans_of_held hr hc hq htt (by rw [ht']; rfl)
    rw [ht'] at this; exact this
  | resume _ _ => exact h
  | kill => exact h

theorem Starts.tree (h : Starts init σ) : Tree init σ.mem σ.pc := by
  have hpc : ∀ t, σ.pc t = .user := h.pc
  rw [h.mem]
  refine ⟨fun t => ?_, fun t _ np hnp => ?_, if_pos rfl, fun _ _ => rfl, fun c p hp => ?_,
    fun c hc hci => ?_⟩
  · rw [hpc]
    refine ⟨(absurd · Bool.false_ne_true), (absurd · Bool.false_ne_true), fun hq => (by cases hq),
      fun np hnp => (by cases hnp), fun np hnp => (by cases hnp), fun np hnp => (by cases hnp),
      fun _ => False.elim, ?_⟩
    by_cases ht : t = init <;> simp [booted, Point.tells, ht]
  · rw [hpc] at hnp; cases hnp
  · cases hp
  · simp [booted, hci] at hc

theorem tree_of_reach (h : Reach (code init) (Starts init) ok σ) : Tree init σ.mem σ.pc :=
  h.invariant_of (I := Reach (code init) (Starts init) ok) (J := fun σ => Tree init σ.mem σ.pc)
    (fun _ hr => hr) (fun _ hi => hi.tree) fun _ _ _ hr hT hs _ => hT.step hr hs

/-- **Every process has a parent that runs.**  A process that runs or has exited has
    one, if it is not init; the parent of a process has not exited, nor has init; and
    no two forks fill the same slot. -/
theorem parent_runs (h : Reach (code init) (Starts init) ok σ) :
    (∀ c, σ.mem.state c = .runnable ∨ σ.mem.state c = .zombie → c ≠ init →
        ∃ p, σ.mem.parent c = some p ∧ σ.mem.state p = .runnable) ∧
      (∀ c p, σ.mem.parent c = some p → σ.mem.state p = .runnable) ∧
      σ.mem.state init = .runnable ∧
      ∀ t t' np, (σ.pc t).makes = some np → (σ.pc t').makes = some np → t = t' := by
  have hT := tree_of_reach h
  refine ⟨fun c hc hci => ?_, hT.parent, hT.root, hT.makes_unique⟩
  obtain ⟨p, hp⟩ := hT.child c hc hci
  exact ⟨p, hp, hT.parent c p hp⟩

/-- A process forks `a`, which forks a child too and exits. -/
def orphaning (p a : Fin N) : List (Event (Fin N) Act) :=
  .go p (.fork true) :: List.replicate 8 (.go p .none) ++
  .go a (.fork true) :: List.replicate 9 (.go a .none) ++
  .go a (.exit 5) :: List.replicate 9 (.go a .none)

theorem parent_runs_orphaning : ∃ σ : FState 3, Reach (code 0) (Starts 0) (fun _ _ => True) σ ∧
    (σ.mem.state 1, σ.mem.parent 2) = (.zombie, some 0) ∧
    (∀ c, σ.mem.state c = .runnable ∨ σ.mem.state c = .zombie → c ≠ 0 →
        ∃ p, σ.mem.parent c = some p ∧ σ.mem.state p = .runnable) ∧
      (∀ c p, σ.mem.parent c = some p → σ.mem.state p = .runnable) ∧
      σ.mem.state 0 = .runnable ∧
      ∀ t t' np, (σ.pc t).makes = some np → (σ.pc t').makes = some np → t = t' := by
  have hplay : (play (pick 0) (fun _ _ => true) (orphaning 0 1) (start (0 : Fin 3))).map
      (fun σ => (σ.mem.state 1, σ.mem.parent 2)) = some (.zombie, some 0) := by decide +kernel
  obtain ⟨σ, hr, hf⟩ := reach_play hplay
  exact ⟨σ, hr, hf, parent_runs hr⟩

end OSLabs.Family
