/-
  The exits of pingpong.

  main closes its semaphores behind wait only.  It also exits when it finds no
  second semaphore, with the first one open, and when fork fails, with both
  open.  So an instance leaves the table as it was if and only if no slot was
  closed, or two were and fork succeeded (`pingpong_restores_iff`).
-/
import OSLabs.User.PingpongRuns

namespace OSLabs.User

open LockMachine OSLabs.Kernel

variable {n : ℕ} {kid : Fin n → Fin n} {forks : Bool} {N : Fin 1 → ℕ} {table : Int32 → Int32}
  {π π' : ProgState n} {stage : Fin 1 → Stage} {st : Stage} {s f c : Int32} {p t : Fin n}
  {took : List Int32}

/-! ## fork -/

/-- The process that fork takes.  For a fork that fails it is the one that calls
    fork, which is in use. -/
def freeProc (kid : Fin n → Fin n) : Bool → Fin n → Fin n
  | true => kid
  | false => id

/-- The processes, in a run in which fork succeeds, or fails. -/
def withFork (kid : Fin n → Fin n) (forks : Bool) : UserSys n (Jobs n) :=
  processes (freeProc kid forks) (!forks)

/-- A step is one of a run in which fork succeeds, or a fork that fails; in a run
    in which it fails, no process is forked. -/
theorem ProgStep.forked (h : ProgStep (freeProc kid forks) (!forks) π π') :
    (ProgStep kid false π π' ∧
      (forks = false → ∀ t, π.jobs.prog t = none → π'.jobs.prog t = none)) ∨
    (forks = false ∧ ∃ t k, π.jobs.prog t = some (.fork k) ∧
      π' = ⟨π.slots, π.jobs.setProg t (k (-1))⟩) := by
  cases forks with
  | true => exact .inl ⟨h, fun hf => by cases hf⟩
  | false =>
    have hset : ∀ {g : Jobs n} {t x y}, g.prog t = some x →
        ∀ u, g.prog u = none → (g.setProg t y).prog u = none := by
      intro g t x y ht u hu
      have hne : u ≠ t := by
        rintro rfl
        rw [ht] at hu; cases hu
      rw [Jobs.setProg_prog, Function.update_of_ne hne, hu]
    cases h with
    | call hp heff => exact .inl ⟨.call hp heff, fun _ => hset hp⟩
    | act hact =>
      cases hact with
      | print hp => exact .inl ⟨.act (.print hp), fun _ => hset hp⟩
      | fork hp hnone _ => exact absurd (hp.symm.trans hnone) (Option.some_ne_none _)
      | forkFails _ hp => exact .inr ⟨rfl, _, _, hp, rfl⟩
      | wait hp hexit => cases hp.symm.trans hexit

/-! ## Closed slots -/

/-- A list of all closed slots. -/
theorem closed_card_le (h : ∀ i < 512, table (Int32.ofNat i) = emptySem → Int32.ofNat i ∈ took) :
    (closed table).card ≤ took.length := by
  refine le_trans (Finset.card_le_card_of_injOn Int32.ofNat ?_ ?_) (List.toFinset_card_le took)
  · intro i hi
    obtain ⟨hi, hempty⟩ := Finset.mem_filter.1 hi
    exact Finset.mem_coe.2 (List.mem_toFinset.2 (h i (Finset.mem_range.1 hi) hempty))
  · exact ofNat_injOn.mono fun i hi =>
      Finset.mem_range.1 (Finset.mem_filter.1 (Finset.mem_coe.1 hi)).1

/-- A list of different closed slots. -/
theorem le_closed_card (hne : took.Nodup) (h : ∀ s ∈ took, InRange s ∧ table s = emptySem) :
    took.length ≤ (closed table).card := by
  rw [← List.toFinset_card_of_nodup hne]
  refine le_trans (Finset.card_le_card fun s hs => ?_) (Finset.card_image_le (f := Int32.ofNat))
  obtain ⟨hrange, hempty⟩ := h s (List.mem_toFinset.1 hs)
  obtain ⟨i, hi, rfl⟩ := hrange.exists_ofNat
  exact Finset.mem_image_of_mem _ (Finset.mem_filter.2 ⟨Finset.mem_range.2 hi, hempty⟩)

/-! ## The invariant -/

/-- The instance is at a stage at which main goes on. -/
structure Going (p : Fin n) (kid : Fin n → Fin n) (N : Fin 1 → ℕ) (table : Int32 → Int32)
    (forks : Bool) (π : ProgState n) (stage : Fin 1 → Stage) : Prop where
  inv : Inv (fun _ => p) kid N table π stage
  scan_lt : ∀ m, (stage 0).scan = some m → m < 512
  two_closed : (stage 0).scan = none → 2 ≤ (closed table).card
  unforked : forks = false → π.jobs.prog (kid p) = none

/-- The instance prints an error and exits, and leaves the slots of `took` open. -/
structure Leaving (p : Fin n) (table : Int32 → Int32) (forks : Bool) (π : ProgState n)
    (took : List Int32) : Prop where
  father : (∃ line, π.jobs.prog p = some (.print line .exit)) ∨ π.jobs.prog p = some .exit
  others : ∀ t ≠ p, π.jobs.prog t = none
  slots : ∀ s, π.slots s = if s ∈ took then some 0 else slot (table s)
  mine : ∀ s ∈ took, InRange s ∧ table s = emptySem
  nothing : took = [] ↔ (closed table).card = 0 ∨ 2 ≤ (closed table).card ∧ forks = true

/-- Before the fork, the semaphores of an instance have no tokens. -/
theorem Stage.own_unforked (h : st.childProg = none) (s : Int32) :
    st.own s = if s ∈ st.took then some 0 else none := by
  cases st with
  | scanFather i => simp [own, Stage.took]
  | scanChild f i => simp [own, Stage.took, Function.update_apply]
  | fork f c =>
    simp only [own, Stage.took, twoSems, Function.update_apply, List.mem_cons, List.not_mem_nil,
      or_false]
    split_ifs <;> simp_all
  | _ => cases h

/-- The father of an instance that has not forked leaves. -/
theorem Inv.leaving (h : Inv (fun _ => p) kid N table π stage)
    (hchild : (stage 0).childProg = none) (hslots : π'.slots = π.slots)
    (hfather : ∃ line, π'.jobs.prog p = some (.print line .exit))
    (hothers : ∀ t ≠ p, π'.jobs.prog t = π.jobs.prog t)
    (hnothing : (stage 0).took = [] ↔
      (closed table).card = 0 ∨ 2 ≤ (closed table).card ∧ forks = true) :
    Leaving p table forks π' (stage 0).took := by
  constructor
  case father => exact .inl hfather
  case others =>
    intro t ht
    rw [hothers t ht]
    by_contra hsome
    obtain ⟨x, hx⟩ := Option.ne_none_iff_exists'.1 hsome
    obtain ⟨j, rfl | rfl⟩ := h.others t x hx
    · exact ht rfl
    · rw [h.child j, Subsingleton.elim j 0] at hsome
      exact hsome hchild
  case slots =>
    intro s
    have hown := Stage.own_unforked hchild s
    rw [hslots]
    split_ifs at hown ⊢ with hs
    · exact h.own 0 s 0 hown
    · exact h.free s fun j => by rw [Subsingleton.elim j 0, hown]
  case mine => exact h.took 0
  case nothing => exact hnothing

/-! ## Steps -/

/-- Where a father gets when it has tried the last slot. -/
theorem Stage.fatherProg_end {m : ℕ} (h : st.scan = some 512) :
    st.fatherProg m = .print "ERROR: No empty semaphore.\n" .exit := by
  cases st with
  | scanFather i => cases h; rfl
  | scanChild f i => cases h; rfl
  | _ => cases h

/-- A father that has tried all slots took those that were closed. -/
theorem Inv.leaving_scan (h : Inv (fun _ => p) kid N table π stage)
    (hscan : (stage 0).scan = some 512) : Leaving p table forks π (stage 0).took := by
  have hlength := Stage.took_length_scan hscan
  have hcard : (closed table).card = (stage 0).took.length := by
    refine le_antisymm (closed_card_le fun i hi hempty => ?_) (le_closed_card ?_ (h.took 0))
    · obtain ⟨j, hj⟩ := (h.scan 0 512 hscan).2 i hi hempty
      rwa [Subsingleton.elim j 0] at hj
    · exact List.nodup_iff_count_le_one.2 fun s => (List.count_le_length).trans hlength
  refine h.leaving (Stage.childProg_scan hscan).1 rfl ?_ (fun t _ => rfl) ?_
  · exact ⟨_, (h.father 0).trans (by rw [Stage.fatherProg_end hscan])⟩
  · rw [hcard, ← List.length_eq_zero_iff]
    omega

/-- Two slots are closed, if main gets to fork. -/
theorem Inv.two_closed (h : Inv (fun _ => p) kid N table π stage) (hst : stage 0 = .fork f c) :
    2 ≤ (closed table).card := by
  have hne : f ≠ c := by have := h.ok 0; rwa [hst] at this
  show [f, c].length ≤ (closed table).card
  refine le_closed_card (by simpa using hne) fun s hs => h.took 0 s ?_
  rw [hst]; exact hs

theorem Going.slot_lt (h : Going p kid N table forks π stage) :
    ∀ {j m}, (stage j).scan = some m → m < 512 := by
  intro j m hm
  rw [Subsingleton.elim j 0] at hm
  exact h.scan_lt m hm

/-- The slot is taken: the scan goes on, or has come to its end. -/
theorem Going.failed {stage' : Fin 1 → Stage} {m : ℕ} (h : Going p kid N table forks π stage)
    (hscan : (stage 0).scan = some m) (hi : Inv (fun _ => p) kid N table π' stage')
    (hst : stage' 0 = (stage 0).failed)
    (hunforked : forks = false → π'.jobs.prog (kid p) = none) :
    Going p kid N table forks π' stage' ∨ Leaving p table forks π' (stage' 0).took := by
  have hnext : (stage' 0).scan = some (m + 1) := by rw [hst, Stage.scan_failed hscan]
  rcases Nat.lt_or_eq_of_le (h.scan_lt m hscan) with hm | hm
  · refine .inl ⟨hi, ?_, ?_, hunforked⟩
    · intro m' hm'
      obtain rfl := Option.some.inj (hnext.symm.trans hm')
      exact hm
    · intro hnone
      rw [hnext] at hnone; cases hnone
  · exact .inr (hi.leaving_scan (by rw [hnext, ← hm]))

/-- The slot is closed: it is one of two, if it is the second one. -/
theorem Going.found {stage' : Fin 1 → Stage} {m : ℕ} (hscan : (stage 0).scan = some m)
    (hi : Inv (fun _ => p) kid N table π' stage') (hst : stage' 0 = (stage 0).found)
    (hunforked : forks = false → π'.jobs.prog (kid p) = none) :
    Going p kid N table forks π' stage' := by
  refine ⟨hi, ?_, ?_, hunforked⟩
  · intro m' hm'
    rw [hst] at hm'
    rw [Stage.scan_found hscan m' hm']
    decide
  · intro hnone
    cases hold : stage 0 with
    | scanFather i => rw [hst, hold] at hnone; cases hnone
    | scanChild f i => exact hi.two_closed (by rw [hst, hold]; rfl)
    | _ => rw [hold] at hscan; cases hscan

/-- A father whose fork fails leaves, with both slots open. -/
theorem Going.forkFails {x : Prog} (h : Going p kid N table false π stage)
    (hst : stage 0 = .fork f c) (hx : ∃ line, x = .print line .exit) :
    Leaving p table false ⟨π.slots, π.jobs.setProg p x⟩ (stage 0).took := by
  obtain ⟨line, rfl⟩ := hx
  have htwo := h.inv.two_closed hst
  refine h.inv.leaving (by rw [hst]; rfl) rfl ⟨line, Function.update_self ..⟩
    (fun t ht => Function.update_of_ne ht ..) ?_
  rw [hst]
  constructor
  · intro hnil; cases hnil
  · rintro (hnone | ⟨-, hforks⟩)
    · omega
    · cases hforks

/-- **An instance goes on, or leaves.** -/
theorem Going.step (h : Going p kid N table forks π stage) (hne : kid p ≠ p)
    (hs : ProgStep (freeProc kid forks) (!forks) π π') :
    (∃ stage', Going p kid N table forks π' stage') ∨ ∃ took, Leaving p table forks π' took := by
  rcases hs.forked with ⟨hs, hkeep⟩ | ⟨rfl, t, k, ht, rfl⟩
  · obtain ⟨j, st, honward, hi⟩ := h.inv.step (apart_one hne) h.slot_lt hs
    obtain rfl := Subsingleton.elim j 0
    have hunforked : forks = false → π'.jobs.prog (kid p) = none :=
      fun hf => hkeep hf _ (h.unforked hf)
    have hst : Function.update stage 0 st 0 = st := Function.update_self ..
    cases hscan : (stage 0).scan with
    | none =>
      have hnone := honward.scan_none hscan
      exact .inl ⟨_, hi, by rw [hst, hnone]; simp, fun _ => h.two_closed hscan, hunforked⟩
    | some m =>
      rcases honward.scan_some (by rw [hscan]; exact Option.some_ne_none m) with rfl | rfl
      · exact (h.failed hscan hi hst hunforked).imp (⟨_, ·⟩) (⟨_, ·⟩)
      · exact .inl ⟨_, Going.found hscan hi hst hunforked⟩
  · cases h.inv.turn h.slot_lt ht with
    | @fork j f c hj =>
      obtain rfl := Subsingleton.elim j 0
      exact .inr ⟨_, h.forkFails hj ⟨_, rfl⟩⟩

theorem Leaving.prog {x : Prog} (h : Leaving p table forks π took)
    (ht : π.jobs.prog t = some x) : t = p ∧ ((∃ line, x = .print line .exit) ∨ x = .exit) := by
  by_cases htp : t = p
  · subst htp
    refine ⟨rfl, h.father.imp ?_ ?_⟩
    · rintro ⟨line, hline⟩
      exact ⟨line, Option.some.inj (ht.symm.trans hline)⟩
    · intro hexit
      exact Option.some.inj (ht.symm.trans hexit)
  · rw [h.others t htp] at ht; cases ht

/-- An instance that leaves makes no calls. -/
theorem Leaving.no_call {c : Call} {k : Int32 → Prog} (h : Leaving p table forks π took) :
    π.jobs.prog t ≠ some (.call c k) := by
  intro ht
  obtain ⟨-, ⟨line, hx⟩ | hx⟩ := h.prog ht <;> cases hx

theorem Leaving.step {fails : Bool} (h : Leaving p table forks π took)
    (hs : ProgStep kid fails π π') : Leaving p table forks π' took := by
  cases hs with
  | call ht _ => exact absurd ht h.no_call
  | act hact =>
    cases hact with
    | print ht =>
      obtain ⟨rfl, ⟨line, hx⟩ | hx⟩ := h.prog ht
      · cases hx
        refine ⟨.inr (Function.update_self ..), fun t hne => ?_, h.slots, h.mine, h.nothing⟩
        exact (Function.update_of_ne hne ..).trans (h.others t hne)
      · cases hx
    | fork ht _ _ => obtain ⟨-, ⟨line, hx⟩ | hx⟩ := h.prog ht <;> cases hx
    | forkFails _ ht => obtain ⟨-, ⟨line, hx⟩ | hx⟩ := h.prog ht <;> cases hx
    | wait ht _ => obtain ⟨-, ⟨line, hx⟩ | hx⟩ := h.prog ht <;> cases hx

theorem Leaving.calm (h : Leaving p table forks π took) : Calm π where
  up _ _ _ ht := absurd ht h.no_call
  down _ _ _ ht := absurd ht h.no_call
  close _ _ _ _ _ ht := absurd ht h.no_call
  kill _ _ _ := h.no_call

/-! ## On the kernel -/

section
variable {C : Type} [DecidableEq C] {σ : KState n (Jobs n) C} {g : Jobs n} {x : Int32}

theorem Launched.going (h : Launched (fun _ : Fin 1 => p) (fun _ => x) g) (hne : kid p ≠ p)
    (hx : 0 < x) : Going p kid (fun _ => x.toNatClampNeg) table forks ⟨slot ∘ table, g⟩
      fun _ => .scanFather 0 where
  inv := h.inv (apart_one hne) fun _ => hx
  scan_lt m hm := by cases hm; decide
  two_closed hnone := by cases hnone
  unforked _ := h.others _ fun _ => hne

omit [DecidableEq C] in
/-- An instance that goes on to its end leaves the table as it was. -/
theorem Going.restored (h : Going p kid N table forks (view σ) stage)
    (hall : ∀ t, ¬ Unfinished σ.mem.user t) :
    σ.mem.value = table ∧ 2 ≤ (closed table).card ∧ forks = true := by
  have hexit := exited_of_finished (h.inv.father 0) (hall p)
  have hdone : ∀ j, ∃ f c, stage j = .done f c := fun _ =>
    h.inv.done h.slot_lt (by simp only [view, hexit, effective_exit])
  obtain ⟨f, c, hst⟩ := hdone 0
  refine ⟨h.inv.restored hdone, h.two_closed (by rw [hst]; rfl), ?_⟩
  by_contra hforks
  have hchild := h.inv.child 0
  rw [hst, h.unforked (by simpa using hforks)] at hchild
  cases hchild

/-- **When pingpong leaves the table as it was.** -/
theorem pingpong_restores_iff (hne : kid p ≠ p) (hx : 0 < x)
    (hg : Launched (fun _ : Fin 1 => p) (fun _ => x) g)
    (h : Reach (code (withFork kid forks)) (Starts table g) (fun _ _ => True) σ)
    (hall : ∀ t, ¬ Unfinished σ.mem.user t) :
    (∀ s, InRange s → σ.mem.value s = table s) ↔
      (closed table).card = 0 ∨ 2 ≤ (closed table).card ∧ forks = true := by
  have hinv : ∀ π, ProgReach (freeProc kid forks) (!forks) ⟨slot ∘ table, g⟩ π →
      (∃ stage, Going p kid (fun _ => x.toNatClampNeg) table forks π stage) ∨
        ∃ took, Leaving p table forks π took := by
    intro π hπ
    refine hπ.invariant (I := fun π =>
      (∃ stage, Going p kid (fun _ => x.toNatClampNeg) table forks π stage) ∨
        ∃ took, Leaving p table forks π took) (.inl ⟨_, hg.going hne hx⟩) ?_
    rintro π π' (⟨stage, hi⟩ | ⟨took, hi⟩) hs
    · exact hi.step hne hs
    · exact .inr ⟨took, hi.step hs⟩
  have hcalm : ∀ π, ProgReach (freeProc kid forks) (!forks) ⟨slot ∘ table, g⟩ π → Calm π := by
    intro π hπ
    rcases hinv π hπ with ⟨stage, hi⟩ | ⟨took, hi⟩
    · exact hi.inv.calm hi.slot_lt
    · exact hi.calm
  obtain ⟨-, hreach⟩ := running_of_reach hcalm h
  rcases hinv _ hreach with ⟨stage, hi⟩ | ⟨took, hi⟩
  · obtain ⟨hvalue, hrest⟩ := hi.restored hall
    exact ⟨fun _ => .inr hrest, fun _ s _ => by rw [hvalue]⟩
  · rw [← hi.nothing]
    constructor
    · -- a slot that the instance took was closed, and is open
      intro hsame
      rw [List.eq_nil_iff_forall_not_mem]
      intro s hs
      obtain ⟨hrange, hempty⟩ := hi.mine s hs
      have hopen : slot (σ.mem.value s) = some 0 := (hi.slots s).trans (if_pos hs)
      rw [hsame s hrange, slot_eq_none.2 hempty] at hopen
      cases hopen
    · rintro rfl s -
      exact slot_injective ((hi.slots s).trans (if_neg List.not_mem_nil))

/-- When the fork of an instance of one round succeeds, it leaves no slot open. -/
theorem pingpong_restores_oneRound : ∃ σ : KState 2 (Jobs 2) (Fin 2),
    (∀ t, ¬ Unfinished σ.mem.user t) ∧
      ((∀ s, InRange s → σ.mem.value s = makeSemArray (fun _ => 0) s) ↔
        (closed (makeSemArray fun _ => 0)).card = 0 ∨
          2 ≤ (closed (makeSemArray fun _ => 0)).card ∧ true = true) := by
  obtain ⟨σ, hσ, hexit⟩ := oneRound_runs
  have hreach : Reach (code (withFork (fun _ => 1) true)) (Starts (makeSemArray fun _ => 0) oneRound)
    (fun _ _ => True) σ := hσ
  have hall : ∀ t, ¬ Unfinished σ.mem.user t := fun t => finished_of_exit (hexit t)
  exact ⟨σ, hall, pingpong_restores_iff (p := 0) (by decide) (show 0 < (1 : Int32) by decide)
    oneRound_launched hreach hall⟩

/-- The next instruction of a process that runs its program, when fork fails. -/
def pickFailing (p : Fin n) (q : Point n) (m : Mem n (Jobs n)) : Option (KInstr n (Jobs n)) :=
  match q, m.user.prog p with
  | .free .user, some (.fork k) =>
    some (.run (m.setUser (m.user.setProg p (k (-1)))) (.free .user))
  | q, _ => pick id p q m

/-- What a process does when fork does not fail, it may also do when it can. -/
theorem does_fails {q : Point n} {m : Mem n (Jobs n)} {i : KInstr n (Jobs n)}
    (h : Does (processes kid false) p q m i) : Does (processes kid true) p q m i := by
  cases h with
  | code hc =>
    refine .code (Eq.trans ?_ hc)
    cases q with
    | free f => cases f <;> rfl
    | _ => rfl
  | call hc => exact .call hc
  | act hact =>
    refine .act ?_
    cases hact with
    | print hp => exact .print hp
    | fork hp hnone hpid => exact .fork hp hnone hpid
    | forkFails hfails _ => cases hfails
    | wait hp hexit => exact .wait hp hexit
  | timer => exact .timer
  | preempt hf => exact .preempt hf

theorem pickFailing_does {q : Point n} {m : Mem n (Jobs n)} {i : KInstr n (Jobs n)}
    (h : pickFailing p q m = some i) : Does (withFork kid false) p q m i := by
  unfold pickFailing at h
  split at h
  · rename_i k hk
    cases h; exact .act (.forkFails rfl hk)
  · exact does_fails (pick_does h)

/-- When its fork fails, it leaves both slots open that it took. -/
theorem not_restores_oneRound : ∃ σ : KState 2 (Jobs 2) (Fin 2),
    Reach (code (withFork (fun _ => 1) false)) (Starts (makeSemArray fun _ => 0) oneRound)
      (fun _ _ => True) σ ∧ (∀ t, ¬ Unfinished σ.mem.user t) ∧
      σ.mem.value 0 = 0 ∧ σ.mem.value 1 = 0 ∧
      ¬ ∀ s, InRange s → σ.mem.value s = makeSemArray (fun _ => 0) s := by
  have hrun : (ticks (code (withFork (fun _ => 1) false)) pickFailing (fun _ _ => true)
      (List.replicate 38 0) (boot (makeSemArray fun _ => 0) oneRound)).map
        (fun σ => ((σ.mem.user.prog 0).map Prog.isExit, (σ.mem.user.prog 1).isNone,
          σ.mem.value 0, σ.mem.value 1)) = some (some true, true, 0, 0) := by decide +kernel
  obtain ⟨σ, hσ, hσ'⟩ := Option.map_eq_some_iff.1 hrun
  simp only [Prod.mk.injEq] at hσ'
  obtain ⟨hexit, hnone, h₀, h₁⟩ := hσ'
  obtain ⟨x, hx, hxe⟩ := Option.map_eq_some_iff.1 hexit
  obtain rfl := Prog.eq_exit hxe
  refine ⟨σ, ?_, Fin.forall_fin_two.2 ⟨finished_of_exit hx, ?_⟩, h₀, h₁, fun hsame => ?_⟩
  · exact ticks_reach (fun _ _ _ => trivial) (fun _ _ _ _ hi => pickFailing_does hi)
      (.init (boot_starts _ _)) hσ
  · rintro ⟨y, hy, -⟩
    rw [Option.isNone_iff_eq_none.1 hnone] at hy; cases hy
  · have hempty := hsame 0 (by decide)
    rw [h₀, makeSemArray_inRange (by decide)] at hempty
    exact absurd hempty (by decide)

end

end OSLabs.User
