/-
  Exits and pids.

  The exits of processes are those that wait has reaped, and those of the zombies
  (`exits_reaped`).  As long as nextpid does not overflow, no two processes have the
  same pid, so none is reaped twice (`pids_unique`).
-/
import OSLabs.Kernel.FamilyWait

namespace OSLabs.Family

open Monitor

variable {N : ℕ} {init t p c : Fin N} {q q' : Point N} {m m' : Mem N} {σ σ' : FState N}
  {ok : FState N → Fin N → Prop} {pc : Fin N → Point N}

/-! ## Exits -/

/-- The exit of a zombie, that has not been reaped. -/
def Mem.unreaped (m : Mem N) (x : Int32 × Int32) (c : Fin N) : ℕ :=
  if m.state c = .zombie ∧ (m.pid c, m.xstate c) = x then 1 else 0

/-- The exits are accounted for. -/
def Mem.Accounts (m : Mem N) : Prop :=
  ∀ x, m.exits.count x = (m.waits.map Prod.snd).count x + ∑ c, m.unreaped x c

theorem unreaped_eq_zero {x : Int32 × Int32} (h : m.state c ≠ .zombie) : m.unreaped x c = 0 :=
  if_neg fun hx => h hx.1

/-- One process changes, and the lists with it. -/
theorem Mem.Accounts.move (h : m.Accounts) (c : Fin N)
    (hother : ∀ x, ∀ c' ≠ c, m'.unreaped x c' = m.unreaped x c')
    (hc : ∀ x, m'.exits.count x + (m.waits.map Prod.snd).count x + m.unreaped x c =
      m.exits.count x + (m'.waits.map Prod.snd).count x + m'.unreaped x c) : m'.Accounts := by
  intro x
  have hsum := Tally.sum_move (m.unreaped x) (m'.unreaped x) c (hother x)
  have := h x
  have := hc x
  omega

/-- **A run keeps the account.** -/
theorem Runs.accounts (hr : Runs init t m q m' q') (hpc : pc t = q) (hT : Tree init m pc)
    (h : m.Accounts) : m'.Accounts := by
  have ht : At init m t q := by rw [← hpc]; exact hT.points t
  cases hr with
  | @alloc copied i np hu =>
    refine h.move np (fun x c' hc' => ?_) fun x => ?_
    · simp [Mem.unreaped, Mem.alloc, hc']
    · rw [unreaped_eq_zero (by rw [hu]; simp), unreaped_eq_zero (by simp [Mem.alloc])]; rfl
  | @copyFail copied np =>
    have hu := ht.makes np rfl
    refine h.move np (fun x c' hc' => ?_) fun x => ?_
    · simp [Mem.unreaped, Mem.free, hc']
    · rw [unreaped_eq_zero (by rw [hu]; simp), unreaped_eq_zero (by simp [Mem.free])]; rfl
  | @start np pid =>
    have hu := ht.makes np rfl
    refine h.move np (fun x c' hc' => ?_) fun x => ?_
    · simp [Mem.unreaped, Mem.start, hc']
    · rw [unreaped_eq_zero (by rw [hu]; simp), unreaped_eq_zero (by simp [Mem.start])]; rfl
  | @exitZombie status =>
    have hrun := ht.lives rfl
    refine h.move t (fun x c' hc' => ?_) fun x => ?_
    · simp [Mem.unreaped, Mem.setZombie, hc']
    · rw [unreaped_eq_zero (by rw [hrun]; simp)]
      simp only [Mem.unreaped, Mem.setZombie, Function.update_self, List.count_append,
        List.count_singleton, beq_iff_eq, true_and]
      omega
  | @reap copies havekids i hp hz =>
    refine h.move i (fun x c' hc' => ?_) fun x => ?_
    · simp [Mem.unreaped, Mem.reap, Mem.free, hc']
    · have hzero : (m.reap t i).unreaped x i = 0 :=
        unreaped_eq_zero (by simp [Mem.reap, Mem.free])
      rw [hzero]
      simp only [Mem.unreaped, Mem.reap, Mem.free, hz, List.map_append, List.map_cons,
        List.map_nil, List.count_append, List.count_singleton, beq_iff_eq, true_and]
      omega
  | _ => exact h

theorem accounts_of_reach (h : Reach (code init) (Starts init) ok σ) : σ.mem.Accounts := by
  refine h.invariant_of (I := fun σ => Tree init σ.mem σ.pc) (J := fun σ => σ.mem.Accounts)
    (fun _ hr => tree_of_reach hr) (fun σ hi x => ?_) fun σ a σ' hT hA hs _ => ?_
  · have hz : ∀ c, (booted init).unreaped x c = 0 := fun c => unreaped_eq_zero (by
      simp only [booted]; split_ifs <;> simp)
    simp only [hi.mem, hz]
    simp [booted]
  · cases hs with
    | run _ hi => exact (Does.runs hi).accounts rfl hT hA
    | _ => exact hA

/-- **Each exit is reaped, or that of a zombie.**  So wait returns no status that is
    not that of an exit, and the status of no exit is lost. -/
theorem exits_reaped (h : Reach (code init) (Starts init) ok σ) (x : Int32 × Int32) :
    σ.mem.exits.count x = (σ.mem.waits.map Prod.snd).count x +
      (Finset.univ.filter fun c =>
        σ.mem.state c = .zombie ∧ (σ.mem.pid c, σ.mem.xstate c) = x).card := by
  rw [accounts_of_reach h x, Finset.card_filter]; rfl

theorem exitAndReap_reach : ∃ σ : FState 2, Reach (code 0) (Starts 0) (fun _ _ => True) σ ∧
    (σ.mem.exits, σ.mem.forks) = ([(2, 5)], 1) := by
  have hplay : (play (pick 0) (fun _ _ => true) (exitAndReap 0 1) (start (0 : Fin 2))).map
      (fun σ => (σ.mem.exits, σ.mem.forks)) = some ([(2, 5)], 1) := by decide +kernel
  exact reach_play hplay

theorem exits_reaped_reaping : ∃ σ : FState 2, Reach (code 0) (Starts 0) (fun _ _ => True) σ ∧
    σ.mem.exits = [(2, 5)] ∧
    σ.mem.exits.count (2, 5) = (σ.mem.waits.map Prod.snd).count (2, 5) +
      (Finset.univ.filter fun c =>
        σ.mem.state c = .zombie ∧ (σ.mem.pid c, σ.mem.xstate c) = (2, 5)).card := by
  obtain ⟨σ, hr, hf⟩ := exitAndReap_reach
  exact ⟨σ, hr, (Prod.mk.inj hf).1, exits_reaped hr (2, 5)⟩

/-! ## Pids -/

/-- nextpid has not overflowed. -/
def Mem.Few (m : Mem N) : Prop := m.forks + 2 < 2 ^ 31

/-- **The pids.**  They are below nextpid, and no two processes have the same, nor one
    that a process has had that has exited. -/
structure Mem.Pids (m : Mem N) : Prop where
  next : m.nextpid.toInt = 2 + m.forks
  below : ∀ c, m.state c ≠ .unused → (m.pid c).toInt < 2 + m.forks
  unique : ∀ c c', m.state c ≠ .unused → m.state c' ≠ .unused → m.pid c = m.pid c' → c = c'
  exited : ∀ e ∈ m.exits, e.1.toInt < 2 + m.forks
  fresh : ∀ c, m.state c = .used ∨ m.state c = .runnable → m.pid c ∉ m.exits.map Prod.fst
  nodup : (m.exits.map Prod.fst).Nodup

theorem Mem.Pids.ne_next (h : m.Pids) (hc : m.state c ≠ .unused) : m.pid c ≠ m.nextpid := by
  intro he
  have := h.below c hc
  rw [he, h.next] at this
  omega

theorem Mem.Pids.alloc (h : m.Pids) (hf : (m.alloc p).Few) : (m.alloc p).Pids := by
  have hst : ∀ x, (m.alloc p).state x = if x = p then .used else m.state x := by
    intro x; simp only [Mem.alloc, Function.update_apply]
  have hpid : ∀ x, (m.alloc p).pid x = if x = p then m.nextpid else m.pid x := by
    intro x; simp only [Mem.alloc, Function.update_apply]
  have hused : ∀ x, x ≠ p → (m.alloc p).state x ≠ .unused → m.state x ≠ .unused := by
    intro x hx hs
    rwa [hst, if_neg hx] at hs
  have hnext : (m.nextpid + 1).toInt = 2 + (m.forks + 1 : ℕ) := by
    have hlt : m.forks + 1 + 2 < 2 ^ 31 := hf
    have hone : (1 : Int32).toInt = 1 := by decide
    rw [Int32.toInt_add, h.next, hone, Int.bmod_eq_of_le] <;> push_cast <;> omega
  have hlift : ∀ {z : ℤ}, z < 2 + m.forks → z < 2 + ((m.alloc p).forks : ℕ) := by
    intro z hz
    have : (m.alloc p).forks = m.forks + 1 := rfl
    rw [this]; push_cast; omega
  refine ⟨hnext, fun x hx => ?_, fun x y hx hy he => ?_, fun e he => hlift (h.exited e he),
    fun x hx => ?_, h.nodup⟩
  · rw [hpid]
    split_ifs with hxp
    · rw [h.next]
      have : (m.alloc p).forks = m.forks + 1 := rfl
      rw [this]; push_cast; omega
    · exact hlift (h.below x (hused x hxp hx))
  · rw [hpid, hpid] at he
    split_ifs at he with hxp hyp hyp
    · rw [hxp, hyp]
    · exact absurd he.symm (h.ne_next (hused y hyp hy))
    · exact absurd he (h.ne_next (hused x hxp hx))
    · exact h.unique x y (hused x hxp hx) (hused y hyp hy) he
  · rw [hpid]
    split_ifs with hxp
    · intro hmem
      obtain ⟨e, he, heq⟩ := List.mem_map.1 hmem
      have := h.exited e he
      rw [heq, h.next] at this
      omega
    · rw [hst, if_neg hxp] at hx
      exact h.fresh x hx

theorem Mem.Pids.free (h : m.Pids) : (m.free p).Pids := by
  have hst : ∀ x, (m.free p).state x = if x = p then .unused else m.state x := by
    intro x; simp only [Mem.free, Function.update_apply]
  have hpid : ∀ x, (m.free p).state x ≠ .unused → x ≠ p ∧ (m.free p).pid x = m.pid x ∧
      m.state x ≠ .unused := by
    intro x hx
    rw [hst] at hx
    split_ifs at hx with hxp
    · exact absurd rfl hx
    · exact ⟨hxp, by simp [Mem.free, hxp], hx⟩
  refine ⟨h.next, fun x hx => ?_, fun x y hx hy he => ?_, h.exited, fun x hx => ?_, h.nodup⟩
  · obtain ⟨-, he, hs⟩ := hpid x hx
    rw [he]; exact h.below x hs
  · obtain ⟨-, hex, hsx⟩ := hpid x hx
    obtain ⟨-, hey, hsy⟩ := hpid y hy
    rw [hex, hey] at he
    exact h.unique x y hsx hsy he
  · have hne : (m.free p).state x ≠ .unused := by rcases hx with hx | hx <;> rw [hx] <;> simp
    obtain ⟨hxp, he, -⟩ := hpid x hne
    rw [hst, if_neg hxp] at hx
    rw [he]; exact h.fresh x hx

theorem Mem.Pids.start (h : m.Pids) (hu : m.state p = .used) : (m.start p).Pids := by
  have hst : ∀ x, (m.start p).state x ≠ .unused → m.state x ≠ .unused := by
    intro x hx
    by_cases hxp : x = p
    · subst hxp; rw [hu]; simp
    · simpa [Mem.start, hxp] using hx
  refine ⟨h.next, fun x hx => h.below x (hst x hx),
    fun x y hx hy => h.unique x y (hst x hx) (hst y hy), h.exited, fun x hx => ?_, h.nodup⟩
  by_cases hxp : x = p
  · subst hxp; exact h.fresh x (.inl hu)
  · exact h.fresh x (by simpa [Mem.start, hxp] using hx)

theorem Mem.Pids.setZombie (h : m.Pids) (hr : m.state t = .runnable) {status : Int32} :
    (m.setZombie t status).Pids := by
  have hst : ∀ x, (m.setZombie t status).state x ≠ .unused → m.state x ≠ .unused := by
    intro x hx
    by_cases hxt : x = t
    · subst hxt; rw [hr]; simp
    · simpa [Mem.setZombie, hxt] using hx
  have hexits : (m.setZombie t status).exits.map Prod.fst = m.exits.map Prod.fst ++ [m.pid t] := by
    simp [Mem.setZombie]
  have htu : m.state t ≠ .unused := by rw [hr]; simp
  refine ⟨h.next, fun x hx => h.below x (hst x hx),
    fun x y hx hy => h.unique x y (hst x hx) (hst y hy), fun e he => ?_, fun x hx => ?_, ?_⟩
  · rcases List.mem_append.1 he with he | he
    · exact h.exited e he
    · obtain rfl := List.mem_singleton.1 he
      exact h.below t htu
  · have hxt : x ≠ t := by
      rintro rfl
      simp [Mem.setZombie] at hx
    have hx' : m.state x = .used ∨ m.state x = .runnable := by
      simpa [Mem.setZombie, hxt] using hx
    rw [hexits, List.mem_append, List.mem_singleton, not_or]
    refine ⟨h.fresh x hx', fun he => hxt (h.unique x t ?_ htu he)⟩
    rcases hx' with hx' | hx' <;> rw [hx'] <;> simp
  · rw [hexits]
    refine List.nodup_append.2 ⟨h.nodup, List.nodup_singleton _, fun a ha b hb => ?_⟩
    obtain rfl := List.mem_singleton.1 hb
    rintro rfl
    exact h.fresh t (.inr hr) ha

/-- **A run keeps the pids apart**, as long as nextpid does not overflow. -/
theorem Runs.pids (hr : Runs init t m q m' q') (hpc : pc t = q) (hT : Tree init m pc)
    (h : m.Few → m.Pids) (hf : m'.Few) : m'.Pids := by
  have ht : At init m t q := by rw [← hpc]; exact hT.points t
  cases hr with
  | alloc =>
    have hlt : m.forks + 1 + 2 < 2 ^ 31 := hf
    exact (h (lt_trans (by omega) hlt)).alloc hf
  | copyFail => exact (h hf).free
  | start => exact (h hf).start (ht.makes _ rfl)
  | exitZombie => exact (h hf).setZombie (ht.lives rfl)
  | reap =>
    obtain ⟨h₁, h₂, h₃, h₄, h₅, h₆⟩ := (h hf).free
    exact ⟨h₁, h₂, h₃, h₄, h₅, h₆⟩
  | setParent | reparent | tell | setKilled =>
    obtain ⟨h₁, h₂, h₃, h₄, h₅, h₆⟩ := h hf
    exact ⟨h₁, h₂, h₃, h₄, h₅, h₆⟩
  | _ => exact h hf

theorem pids_of_reach (h : Reach (code init) (Starts init) ok σ) (hf : σ.mem.Few) :
    σ.mem.Pids := by
  revert hf
  refine h.invariant_of (I := fun σ => Tree init σ.mem σ.pc) (J := fun σ => σ.mem.Few → σ.mem.Pids)
    (fun _ hr => tree_of_reach hr) (fun σ hi _ => ?_) fun σ a σ' hT hP hs _ => ?_
  · have hused : ∀ c, (booted init).state c ≠ .unused → c = init := by
      intro c hc
      by_contra hne
      exact hc (if_neg hne)
    rw [hi.mem]
    have hnext : (2 : Int32).toInt = 2 + ((0 : ℕ) : ℤ) := by decide
    refine ⟨hnext, fun c hc => ?_, fun c c' hc hc' _ => ?_, fun e he => (by cases he),
      fun c _ hm => (by cases hm), List.nodup_nil⟩
    · rw [hused c hc]
      simp only [booted, if_true]
      decide
    · rw [hused c hc, hused c' hc']
  · cases hs with
    | run _ hi => exact (Does.runs hi).pids rfl hT hP
    | _ => exact hP

/-- **Pids are unique**, as long as nextpid does not overflow: no two processes have
    the same pid, no two exits, and no process is reaped twice. -/
theorem pids_unique (h : Reach (code init) (Starts init) ok σ) (hf : σ.mem.forks + 2 < 2 ^ 31) :
    (∀ c c', σ.mem.state c ≠ .unused → σ.mem.state c' ≠ .unused →
        σ.mem.pid c = σ.mem.pid c' → c = c') ∧
      (σ.mem.exits.map Prod.fst).Nodup ∧ (σ.mem.waits.map fun w => w.2.1).Nodup := by
  have hP := pids_of_reach h hf
  refine ⟨hP.unique, hP.nodup, ?_⟩
  have hsub : (σ.mem.waits.map Prod.snd).Subperm σ.mem.exits := by
    refine List.subperm_ext_iff.2 fun x _ => ?_
    rw [exits_reaped h x]
    exact Nat.le_add_right _ _
  obtain ⟨l, hperm, hl⟩ := hsub
  have hnodup : ((σ.mem.waits.map Prod.snd).map Prod.fst).Nodup :=
    (hperm.map Prod.fst).nodup_iff.1 ((hl.map Prod.fst).nodup hP.nodup)
  rwa [List.map_map] at hnodup

theorem pids_unique_reaping : ∃ σ : FState 2, Reach (code 0) (Starts 0) (fun _ _ => True) σ ∧
    σ.mem.forks + 2 < 2 ^ 31 ∧
    (∀ c c', σ.mem.state c ≠ .unused → σ.mem.state c' ≠ .unused →
        σ.mem.pid c = σ.mem.pid c' → c = c') ∧
      (σ.mem.exits.map Prod.fst).Nodup ∧ (σ.mem.waits.map fun w => w.2.1).Nodup := by
  obtain ⟨σ, hr, hf⟩ := exitAndReap_reach
  have hforks : σ.mem.forks + 2 < 2 ^ 31 := by
    rw [(Prod.mk.inj hf).2]; decide
  exact ⟨σ, hr, hforks, pids_unique hr hforks⟩

/-- Unused slots have the pid 0.  When a process kills that pid, the next child in
    the slot is killed from the start. -/
theorem killed_unborn : ∃ σ : FState 2, Reach (code 0) (Starts 0) (fun _ _ => True) σ ∧
    σ.mem.state 1 = .runnable ∧ σ.mem.killed 1 = true ∧ σ.mem.pid 1 = 2 := by
  have hplay : (play (pick 0) (fun _ _ => true)
      (.go 0 (.kill 0) :: List.replicate 4 (.go 0 .none) ++
        .go 0 (.fork true) :: List.replicate 8 (.go 0 .none)) (start (0 : Fin 2))).map
      (fun σ => (σ.mem.state 1, σ.mem.killed 1, σ.mem.pid 1)) = some (.runnable, true, 2) := by
    decide +kernel
  obtain ⟨σ, hr, hf⟩ := reach_play hplay
  obtain ⟨hs, hf⟩ := Prod.mk.inj hf
  exact ⟨σ, hr, hs, Prod.mk.inj hf⟩

end OSLabs.Family
