/-
  The children of a process.

  A process that is not init gets a child only in its own fork, and loses one only in its
  own wait (`Runs.kids`).  So fork adds one child to those it has (`fork_result`), and the
  wait of a process with one child returns when that child has exited (`wait_child`).
  The programs of OSLabs.User.Program fork and wait like this.
-/
import OSLabs.Kernel.FamilyExits

namespace OSLabs.Family

open Monitor

variable {N : ℕ} {init t u c np : Fin N} {q q' : Point N} {m m₀ m' : Mem N} {σ σ₀ σ' : FState N}
  {ok : FState N → Fin N → Prop} {pc : Fin N → Point N} {pid : Int32}

/-! ## What the others do -/

/-- A process that may run or has exited, and that nobody has reaped. -/
def Mem.Born (m : Mem N) (c : Fin N) : Prop := m.state c = .runnable ∨ m.state c = .zombie

/-- **The others leave the children of a process as they are**, but for their exit. -/
theorem Runs.kids (hr : Runs init u m q m' q') (hpc : pc u = q) (h : Tree init m pc)
    (htu : t ≠ u) (ht : t ≠ init) (c : Fin N) : (m'.parent c = some t ↔ m.parent c = some t) ∧
      (m.parent c = some t → m'.pid c = m.pid c ∧ (m.Born c → m'.Born c)) := by
  have hu : At init m u q := by rw [← hpc]; exact h.points u
  have hsome : ∀ {x : Fin N}, some x = some t → x ≠ t → False :=
    fun hx hne => hne (Option.some.inj hx)
  cases hr with
  | @alloc copied i np hunused =>
    refine ⟨Iff.rfl, fun hc => ?_⟩
    have hne : c ≠ np := by
      rintro rfl
      rw [h.unused c hunused] at hc; cases hc
    simp [Mem.alloc, Mem.Born, hne]
  | @copyFail copied np =>
    have hnone := hu.unset np rfl rfl
    by_cases hne : c = np
    · subst hne
      rw [hnone]
      exact ⟨by simp [Mem.free], fun hc => by cases hc⟩
    · simp [Mem.free, Mem.Born, hne]
  | @setParent np pid =>
    have hnone := hu.unset np rfl rfl
    by_cases hne : c = np
    · subst hne
      rw [hnone]
      refine ⟨?_, fun hc => by cases hc⟩
      simp only [Mem.setParent, Function.update_self]
      exact ⟨fun hx => (hsome hx htu.symm).elim, fun hx => by cases hx⟩
    · simp [Mem.setParent, Mem.Born, hne]
  | @start np pid =>
    have hadopted := hu.adopted np rfl rfl
    refine ⟨Iff.rfl, fun hc => ⟨rfl, fun hborn => ?_⟩⟩
    have hne : c ≠ np := by
      rintro rfl
      rw [hadopted] at hc
      exact hsome hc htu.symm
    simpa [Mem.start, Mem.Born, hne] using hborn
  | @reparent status i hp =>
    by_cases hne : c = i
    · subst hne
      rw [hp]
      refine ⟨?_, fun hc => (hsome hc htu.symm).elim⟩
      simp only [Mem.setParent, Function.update_self]
      exact ⟨fun hx => (hsome hx ht.symm).elim, fun hx => (hsome hx htu.symm).elim⟩
    · simp [Mem.setParent, Mem.Born, hne]
  | exitZombie =>
    refine ⟨Iff.rfl, fun _ => ⟨rfl, fun hborn => ?_⟩⟩
    simp only [Mem.Born, Mem.setZombie, Function.update_apply]
    split_ifs
    · exact .inr rfl
    · exact hborn
  | @reap copies havekids i hp hz =>
    by_cases hne : c = i
    · subst hne
      rw [hp]
      refine ⟨?_, fun hc => (hsome hc htu.symm).elim⟩
      simp only [Mem.reap, Mem.free, Function.update_self]
      exact ⟨fun hx => (by cases hx), fun hx => (hsome hx htu.symm).elim⟩
    · simp [Mem.reap, Mem.free, Mem.Born, hne]
  | _ => exact ⟨Iff.rfl, fun _ => ⟨rfl, id⟩⟩

/-- The others leave the pid of the slot that a process fills as it is. -/
theorem Runs.pid_of_makes (hr : Runs init u m q m' q') (hpc : pc u = q) (h : Tree init m pc)
    (htu : t ≠ u) (hmakes : (pc t).makes = some np) : m'.pid np = m.pid np := by
  have hused := (h.points t).makes np hmakes
  cases hr with
  | alloc hunused =>
    refine Function.update_of_ne ?_ ..
    rintro rfl
    rw [hused] at hunused; cases hunused
  | copyFail =>
    refine Function.update_of_ne ?_ ..
    rintro rfl
    exact htu (h.makes_unique t u np hmakes (by rw [hpc]; rfl))
  | reap _ hz =>
    refine Function.update_of_ne ?_ ..
    rintro rfl
    rw [hused] at hz; cases hz
  | _ => rfl

theorem Runs.few (hr : Runs init u m q m' q') (hf : m'.Few) : m.Few := by
  cases hr with
  | alloc => exact lt_trans (Nat.add_lt_add_right (Nat.lt_succ_self _) 2) hf
  | _ => exact hf

theorem Runs.exits (hr : Runs init u m q m' q') : m.exits ⊆ m'.exits := by
  cases hr with
  | exitZombie => exact List.subset_append_left ..
  | _ => exact List.Subset.refl _

/-! ## fork -/

/-- The process has the children that it had in `m₀`, and `np`. -/
structure Mem.Adds (m₀ m : Mem N) (t np : Fin N) : Prop where
  new : m₀.parent np ≠ some t
  kids : ∀ c, m.parent c = some t ↔ m₀.parent c = some t ∨ c = np

/-- It has the children that it had in `m₀`. -/
def Mem.Same (m₀ m : Mem N) (t : Fin N) : Prop := ∀ c, m.parent c = some t ↔ m₀.parent c = some t

/-- What fork, called in `m₀`, has done at a point. -/
def Point.forks (t : Fin N) (m₀ m : Mem N) : Point N → Prop
  | .alloc _ _ => m₀.Same m t
  | .copy _ np => m₀.Same m t ∧ (m.Few → 0 < m.pid np)
  | .adopt np pid => m₀.Same m t ∧ pid = m.pid np ∧ (m.Few → 0 < pid)
  | .setParent np pid => m₀.Same m t ∧ pid = m.pid np ∧ (m.Few → 0 < pid)
  | .setRelease np pid => m₀.Adds m t np ∧ pid = m.pid np ∧ (m.Few → 0 < pid)
  | .start np pid => m₀.Adds m t np ∧ pid = m.pid np ∧ (m.Few → 0 < pid)
  | .forkReturn r => r = -1 ∧ m₀.Same m t ∨
      ∃ np, m₀.Adds m t np ∧ m.Born np ∧ r = m.pid np ∧ (m.Few → 0 < r)
  | _ => False

theorem Mem.Same.congr (h : m₀.Same m t) (hk : ∀ c, m'.parent c = some t ↔ m.parent c = some t) :
    m₀.Same m' t := fun c => (hk c).trans (h c)

theorem Mem.Adds.congr (h : m₀.Adds m t np) (hk : ∀ c, m'.parent c = some t ↔ m.parent c = some t) :
    m₀.Adds m' t np := ⟨h.new, fun c => (hk c).trans (h.kids c)⟩

theorem Mem.Adds.parent (h : m₀.Adds m t np) : m.parent np = some t := (h.kids np).2 (.inr rfl)

/-- The steps of fork. -/
theorem Runs.forks (hr : Runs init t m q m' q') (hpc : pc t = q) (h : Tree init m pc)
    (hpids : m.Few → m.Pids) (hq : q.forks t m₀ m) : q' = .user ∨ q'.forks t m₀ m' := by
  have ht : At init m t q := by rw [← hpc]; exact h.points t
  cases hr with
  | @alloc copied i np hunused =>
    refine .inr ⟨hq, fun hf => ?_⟩
    have hstep : Runs init t m (.alloc copied i) (m.alloc np) (.copy copied np) := .alloc hunused
    have hnext := (hpids (hstep.few hf)).next
    have hpid : (m.alloc np).pid np = m.nextpid := Function.update_self ..
    have hzero : (0 : Int32).toInt = 0 := by decide
    rw [hpid, Int32.lt_iff_toInt_lt, hnext, hzero]
    omega
  | allocNext => exact .inr hq
  | allocFail => exact .inr (.inl ⟨rfl, hq⟩)
  | copy => exact .inr ⟨hq.1, rfl, hq.2⟩
  | @copyFail copied np =>
    have hnone := ht.unset np rfl rfl
    refine .inr (.inl ⟨rfl, hq.1.congr fun c => ?_⟩)
    have hparent : (m.free np).parent = m.parent := Function.update_eq_self_iff.2 hnone.symm
    rw [hparent]
  | @setParent np pid =>
    have hnone := ht.unset np rfl rfl
    refine .inr ⟨⟨fun hp => ?_, fun c => ?_⟩, hq.2⟩
    · rw [(hq.1 np).2 hp] at hnone; cases hnone
    · rw [← hq.1 c]
      simp only [Mem.setParent, Function.update_apply]
      split_ifs with hc
      · exact iff_of_true rfl (.inr hc)
      · exact (or_iff_left hc).symm
  | @start np pid =>
    refine .inr (.inr ⟨np, hq.1.congr fun _ => Iff.rfl, .inl ?_, hq.2⟩)
    exact Function.update_self ..
  | forkReturn => exact .inl rfl
  | _ => exact hq.elim

/-- The steps of the others during a fork. -/
theorem Runs.forks_other (hr : Runs init u m q m' q') (hpc : pc u = q) (h : Tree init m pc)
    (htu : t ≠ u) (ht : t ≠ init) (hq : (pc t).forks t m₀ m) : (pc t).forks t m₀ m' := by
  have hkids := fun c => (hr.kids hpc h htu ht c).1
  have hmakes : ∀ np, (pc t).makes = some np → m'.pid np = m.pid np :=
    fun _ => hr.pid_of_makes hpc h htu
  generalize hqt : pc t = q₀ at hq hmakes
  cases q₀ with
  | alloc => exact Mem.Same.congr hq hkids
  | copy copied np =>
    obtain ⟨hsame, hpos⟩ := hq
    exact ⟨hsame.congr hkids, fun hf => by rw [hmakes np rfl]; exact hpos (hr.few hf)⟩
  | adopt np pid =>
    obtain ⟨hsame, hpid, hpos⟩ := hq
    exact ⟨hsame.congr hkids, by rw [hmakes np rfl]; exact hpid, fun hf => hpos (hr.few hf)⟩
  | setParent np pid =>
    obtain ⟨hsame, hpid, hpos⟩ := hq
    exact ⟨hsame.congr hkids, by rw [hmakes np rfl]; exact hpid, fun hf => hpos (hr.few hf)⟩
  | setRelease np pid =>
    obtain ⟨hadds, hpid, hpos⟩ := hq
    exact ⟨hadds.congr hkids, by rw [hmakes np rfl]; exact hpid, fun hf => hpos (hr.few hf)⟩
  | start np pid =>
    obtain ⟨hadds, hpid, hpos⟩ := hq
    exact ⟨hadds.congr hkids, by rw [hmakes np rfl]; exact hpid, fun hf => hpos (hr.few hf)⟩
  | forkReturn r =>
    refine hq.imp (fun ⟨hneg, hsame⟩ => ⟨hneg, Mem.Same.congr hsame hkids⟩) ?_
    rintro ⟨np, hadds, hborn, hpid, hpos⟩
    obtain ⟨hpid', hborn'⟩ := (hr.kids hpc h htu ht np).2 hadds.parent
    exact ⟨np, hadds.congr hkids, hborn' hborn, hpid.trans hpid'.symm, fun hf => hpos (hr.few hf)⟩
  | _ => exact hq.elim

/-- **What fork returns** to a process that is not init: -1, and it has the children that it
    had when it called fork; or the pid of a new child, which may run or has exited. -/
theorem fork_result {copied : Bool} (h : Reach (code init) (Starts init) ok σ₀)
    (hcall : Reach (code init) (· = σ₀) (Within t) σ) (h₀ : σ₀.pc t = .alloc copied 0)
    (ht : t ≠ init) {r : Int32} (hr : σ.pc t = .forkReturn r) :
    r = -1 ∧ σ₀.mem.Same σ.mem t ∨ ∃ np, σ₀.mem.Adds σ.mem t np ∧ σ.mem.Born np ∧
      r = σ.mem.pid np ∧ (σ.mem.Few → 0 < r) := by
  have hJ : σ.pc t = .user ∨ (σ.pc t).forks t σ₀.mem σ.mem := by
    refine point_of_within (J := fun q m => q.forks t σ₀.mem m) h hcall ?_ ?_ ?_ ?_ ?_ ?_ ?_
    · rw [h₀]; exact fun _ => Iff.rfl
    · intro q q' m ha hq
      cases ha with
      | adopt => exact hq
      | _ => exact hq.elim
    · intro q q' m hr hq
      cases hr with
      | fork => exact .inr hq
      | _ => exact hq.elim
    · intro q k q' m hs hq
      cases hs; exact hq.elim
    · intro q k q' m hw hq
      cases hw <;> exact hq.elim
    · intro σ hσ m q' hruns hq
      exact hruns.forks rfl (tree_of_reach hσ) (pids_of_reach hσ) hq
    · intro σ hσ u m q' htu _ hruns hq
      exact hruns.forks_other rfl (tree_of_reach hσ) htu ht hq
  rw [hr] at hJ
  exact hJ.resolve_left nofun

/-! ## wait -/

/-- What holds at a point of wait, when `c` is the only child of the process. -/
def Point.awaits (t c : Fin N) (pid : Int32) (m : Mem N) : Point N → Prop
  | .waitRelease _ r => r = pid ∧ pid ∈ m.exits.map Prod.fst ∨ r = -1 ∧ m.killed t = true
  | .waitReturn _ r => r = pid ∧ pid ∈ m.exits.map Prod.fst ∨ r = -1 ∧ m.killed t = true
  | _ => (∀ x, m.parent x = some t ↔ x = c) ∧ m.pid c = pid

/-- The process is in a wait whose status can be copied out, or is not asked for. -/
structure Awaits (t c : Fin N) (pid : Int32) (q : Point N) (m : Mem N) : Prop where
  waiting : q.waiting = some true
  awaits : q.awaits t c pid m

/-- A zombie has exited. -/
theorem exited_of_zombie (h : Reach (code init) (Starts init) ok σ) (hz : σ.mem.state c = .zombie) :
    (σ.mem.pid c, σ.mem.xstate c) ∈ σ.mem.exits := by
  have hone : σ.mem.unreaped (σ.mem.pid c, σ.mem.xstate c) c = 1 := if_pos ⟨hz, rfl⟩
  have hle := Finset.single_le_sum (f := σ.mem.unreaped (σ.mem.pid c, σ.mem.xstate c))
    (fun _ _ => Nat.zero_le _) (Finset.mem_univ c)
  rw [← List.count_pos_iff, accounts_of_reach h]
  omega

/-- The steps of wait. -/
theorem Runs.awaits (hr : Runs init t σ.mem q m' q') (hσ : Reach (code init) (Starts init) ok σ)
    (hk : q.knows t σ.mem) (hq : Awaits t c pid q σ.mem) : q' = .user ∨ Awaits t c pid q' m' := by
  obtain ⟨hw, hq⟩ := hq
  cases hr with
  | @reap copies havekids i hp hz =>
    obtain ⟨hkids, hpid⟩ := hq
    obtain rfl := (hkids i).1 hp
    exact .inr ⟨hw, .inl ⟨hpid, List.mem_map.2 ⟨_, exited_of_zombie hσ hz, hpid⟩⟩⟩
  | copyoutFails => cases hw
  | scanKid => exact .inr ⟨hw, hq⟩
  | scanNext => exact .inr ⟨hw, hq⟩
  | waitFails hi hor =>
    refine .inr ⟨hw, .inr ⟨rfl, hor.resolve_left fun hf => ?_⟩⟩
    exact hk.2.1 hf c (c.isLt.trans_le hi) ((hq.1 c).2 rfl)
  | sleeps => exact .inr ⟨hw, hq⟩
  | waitReturn => exact .inl rfl
  | _ => cases hw

/-- The steps of the others during a wait. -/
theorem Runs.awaits_other (hr : Runs init u m q m' q') (hpc : pc u = q) (h : Tree init m pc)
    (htu : t ≠ u) (ht : t ≠ init) (hq : Awaits t c pid (pc t) m) : Awaits t c pid (pc t) m' := by
  have hone : (∀ x, m.parent x = some t ↔ x = c) ∧ m.pid c = pid →
      (∀ x, m'.parent x = some t ↔ x = c) ∧ m'.pid c = pid := by
    rintro ⟨hkids, hpid⟩
    refine ⟨fun x => ((hr.kids hpc h htu ht x).1).trans (hkids x), ?_⟩
    rw [((hr.kids hpc h htu ht c).2 ((hkids c).2 rfl)).1, hpid]
  have hend : ∀ {r : Int32}, m.state t = .runnable →
      r = pid ∧ pid ∈ m.exits.map Prod.fst ∨ r = -1 ∧ m.killed t = true →
      r = pid ∧ pid ∈ m'.exits.map Prod.fst ∨ r = -1 ∧ m'.killed t = true := by
    intro r hs
    exact Or.imp (fun ⟨hr', hx⟩ => ⟨hr', List.map_subset _ hr.exits hx⟩) fun ⟨hr', hkl⟩ =>
      ⟨hr', hr.killed hpc h hs hkl⟩
  have hlives := (h.points t).lives
  obtain ⟨hw, hq⟩ := hq
  refine ⟨hw, ?_⟩
  generalize pc t = q₀ at hw hq hlives
  cases q₀ with
  | waitRelease => exact hend (hlives rfl) hq
  | waitReturn => exact hend (hlives rfl) hq
  | _ => exact hone hq

/-- **The wait of a process with one child** returns the pid of the child, which has exited;
    or -1, and the process is killed. -/
theorem wait_child (h : Reach (code init) (Starts init) ok σ₀)
    (hcall : Reach (code init) (· = σ₀) (Within t) σ) (h₀ : σ₀.pc t = .wait true) (ht : t ≠ init)
    (hkids : ∀ x, σ₀.mem.parent x = some t ↔ x = c) {b : Bool} {r : Int32}
    (hr : σ.pc t = .waitReturn b r) :
    r = σ₀.mem.pid c ∧ r ∈ σ.mem.exits.map Prod.fst ∨ r = -1 ∧ σ.mem.killed t = true := by
  have hJ : σ.pc t = .user ∨ Awaits t c (σ₀.mem.pid c) (σ.pc t) σ.mem := by
    refine point_of_within (J := Awaits t c (σ₀.mem.pid c)) h hcall ?_ ?_ ?_ ?_ ?_ ?_ ?_
    · rw [h₀]; exact ⟨rfl, hkids, rfl⟩
    · rintro q q' m ha ⟨hw, hq⟩
      cases ha with
      | wait => exact ⟨hw, hq⟩
      | _ => cases hw
    · rintro q q' m hrel ⟨hw, hq⟩
      cases hrel with
      | wait => exact .inr ⟨hw, hq⟩
      | _ => cases hw
    · rintro q k q' m hs ⟨hw, hq⟩
      cases hs; exact ⟨hw, hq⟩
    · rintro q k q' m hwake ⟨hw, -⟩
      cases hwake <;> cases hw
    · intro σ hσ m q' hruns hq
      exact hruns.awaits hσ (knows_of_reach hσ t) hq
    · intro σ hσ u m q' htu _ hruns hq
      exact hruns.awaits_other rfl (tree_of_reach hσ) htu ht hq
  rw [hr] at hJ
  refine (hJ.resolve_left nofun).awaits.imp_left fun ⟨hpid, hx⟩ => ⟨hpid, ?_⟩
  rw [hpid]; exact hx

end OSLabs.Family
