/-
  get_empty_sem returns, and what.

  A process in get_empty_sem always has an instruction, and each of its steps brings it
  closer to the return, but for its timer interrupts (`nearer_move`); so a call takes a
  bounded number of steps (`Alone.bounded`), and gets to its end when it can run
  (`Alone.finishes`).  `allocation_of_reach` is what the calls return.
-/
import OSLabs.User.AllocatorRuns

namespace OSLabs.Kernel

open LockMachine

variable {n : ℕ} {G : Type} {U : UserSys n G} {p : Fin n} {q : Point n} {m : Mem n G} {l : ℕ}

/-! ## How far user mode is -/

/-- How many steps a process is from user mode in a sem_open, or behind a timer
    interrupt, from a point without locks. -/
def Free.behind : Free → Option ℕ
  | .user => some 0
  | .resume _ => some 1
  | .killed (.userret _) => some 4
  | .semOpen _ _ => some 7
  | .killed (.syscall (.semOpen _ _)) => some 10
  | .killed .timer => some 7
  | _ => none

def Point.behind : Point n → Option ℕ
  | .free f => Free.behind f
  | .killedRelease (.userret _) false => some 2
  | .killedCheck (.userret _) => some 3
  | .openRelease _ _ => some 5
  | .openTest _ _ => some 6
  | .killedRelease (.syscall (.semOpen _ _)) false => some 8
  | .killedCheck (.syscall (.semOpen _ _)) => some 9
  | .killedRelease .timer false => some 5
  | .killedCheck .timer => some 6
  | .yieldRelease f => (Free.behind f).map (· + 1)
  | .yieldSched f => (Free.behind f).map (· + 2)
  | .yieldState f => (Free.behind f).map (· + 3)
  | .yield f => (Free.behind f).map (· + 4)
  | _ => none

/-- The points behind a timer interrupt. -/
def Point.yields : Point n → Bool
  | .free (.killed .timer) => true
  | .killedCheck .timer => true
  | .killedRelease .timer _ => true
  | .yield _ => true
  | .yieldState _ => true
  | .yieldSched _ => true
  | .yieldRelease _ => true
  | _ => false

/-- In a sem_open, or behind a timer interrupt, a process has an instruction. -/
theorem Point.behind_exec (hl : q.behind = some l) (hq : q ≠ .free .user) :
    ∃ i, exec U p q m = some i := by
  cases q with
  | free f =>
    cases f with
    | user => exact absurd rfl hq
    | killed a => exact ⟨_, rfl⟩
    | semOpen s v => exact ⟨_, rfl⟩
    | resume r => exact ⟨_, rfl⟩
    | _ => cases hl
  | openTest s v =>
    simp only [exec]
    split_ifs
    · exact ⟨_, rfl⟩
    · exact ⟨_, rfl⟩
  | _ => first | exact ⟨_, rfl⟩ | cases hl

/-- Without a timer interrupt, it does not enter the scheduler. -/
theorem Point.behind_next {i : KInstr n G} (hl : q.behind = some l) (hy : q.yields = false)
    (hi : exec U p q m = some i) :
    i.next.yields = false ∧ ∀ q', i ≠ .sched q' := by
  cases q with
  | free f =>
    cases f with
    | killed a =>
      cases hi
      cases a with
      | timer => cases hy
      | _ => exact ⟨rfl, fun _ h => by cases h⟩
    | semOpen s v => cases hi; exact ⟨rfl, fun _ h => by cases h⟩
    | resume r => cases hi; exact ⟨rfl, fun _ h => by cases h⟩
    | user => cases hi
    | _ => cases hl
  | killedCheck a =>
    cases hi
    cases a with
    | timer => cases hy
    | _ => exact ⟨rfl, fun _ h => by cases h⟩
  | killedRelease a b =>
    cases hi
    cases a with
    | timer => cases hy
    | userret r =>
      cases b with
      | false => exact ⟨rfl, fun _ h => by cases h⟩
      | true => cases hl
    | syscall c =>
      cases b with
      | false =>
        refine ⟨?_, fun _ h => by cases h⟩
        cases c with
        | semOpen s v =>
          show (enter (.semOpen s v) : Point n).yields = false
          rw [enter]
          split_ifs <;> rfl
        | _ => cases hl
      | true => cases c <;> cases hl
  | openTest s v =>
    simp only [exec] at hi
    split_ifs at hi
    · cases hi; exact ⟨rfl, fun _ h => by cases h⟩
    · cases hi; exact ⟨rfl, fun _ h => by cases h⟩
  | openRelease s r => cases hi; exact ⟨rfl, fun _ h => by cases h⟩
  | _ => first | cases hl | cases hy

end OSLabs.Kernel

namespace OSLabs.User

open LockMachine OSLabs.Kernel AtomicObject

variable {n : ℕ} {C : Type} [DecidableEq C] {p : Fin n} {v r : Int32} {q q' : Point n}
  {m m' : Mem n (Owners n)} {x x' : Calls} {c : Call} {k : Int32 → Calls} {i j l b : ℕ}
  {σ σ' : KState n (Owners n) C} {table table₀ : Int32 → Int32} {g : Owners n}

/-! ## How far the return is -/

/-- The function makes at most this many calls. -/
inductive Calls.AtMost : ℕ → Calls → Prop
  | ret {b : ℕ} {r : Int32} : AtMost b (.ret r)
  | call {b : ℕ} {c : Call} {k : Int32 → Calls} : (∀ r, AtMost b (k r)) → AtMost (b + 1) (.call c k)

/-- Behind the system call in which the process is, `x` makes at most `b` calls. -/
def Left (ph : Phase Call Int32) (x : Calls) (b : ℕ) : Prop :=
  match ph with
  | .idle => x.AtMost b
  | _ => ∃ c k, x = .call c k ∧ ∀ r, (k r).AtMost b

/-- The process has an instruction of the kernel, or makes a call of get_empty_sem. -/
def Goes (σ : KState n (Owners n) C) (p : Fin n) : Prop :=
  (∃ i, exec allocators p (σ.pc p) σ.mem = some i) ∨
    σ.pc p = .free .user ∧ ∃ c k, σ.mem.user.scan p = some (.call c k)

theorem left_iff {ph : Phase Call Int32} (h : ph ≠ .idle) :
    Left ph x b ↔ ∃ c k, x = .call c k ∧ ∀ r, (k r).AtMost b := by
  cases ph with
  | idle => exact absurd rfl h
  | _ => exact Iff.rfl

theorem getEmptySemLoop_atMost : ∀ (m : ℕ) (sc : Scan), (getEmptySemLoop m sc).AtMost m
  | 0, _ => .ret
  | m + 1, sc => by
    rw [getEmptySemLoop]
    split_ifs
    · exact .call fun r => getEmptySemLoop_atMost m (sc.next r)
    · exact .ret

theorem getEmptySem_atMost (v : Int32) : (getEmptySem v).AtMost 512 := getEmptySemLoop_atMost ..

/-- A call that get_empty_sem makes takes the process to the kernel. -/
theorem nearer_call (hx : m.user.scan p = some x) (hrest : Rest v x) (hb : x.AtMost b)
    (h : Owners.Asks p m.user c g) :
    g = m.user ∧ (.free (.killed (.syscall c)) : Point n).behind = some 10 ∧
      ∃ b', Left (Point.free (.killed (.syscall c)) : Point n).phase x b' ∧
        10 + 11 * b' < 11 * b := by
  cases h with
  | @attempt c k hx' =>
    rw [hx] at hx'
    cases hx'
    cases hb with
    | @call b _ _ hk =>
      obtain ⟨i, -, rfl, -⟩ := hrest.call
      exact ⟨rfl, rfl, b, ⟨_, k, rfl, hk⟩, by omega⟩
  | up hnone => rw [hx] at hnone; cases hnone
  | down hnone => rw [hx] at hnone; cases hnone
  | close hnone _ => rw [hx] at hnone; cases hnone

/-- **Each step brings a process in get_empty_sem closer to the return**, but for a timer
    interrupt, and that in which it returns. -/
theorem nearer_move (h : Moves allocators p m q q' m') (hk : m.killed p = false)
    (hx : m.user.scan p = some x) (hrest : Rest v x) (hl : q.behind = some l)
    (hb : Left q.phase x b) (hin : m'.user.scan p ≠ none) :
    ∃ x' l' b', m'.user.scan p = some x' ∧ q'.behind = some l' ∧ Left q'.phase x' b' ∧
      (l' + 11 * b' < l + 11 * b ∨ Interrupts q q' ∧ l' + 11 * b' ≤ l + 11 * b + 7) := by
  -- a step inside of the kernel, with the same call before and behind it
  have hstay : ∀ {l'}, m'.user = m.user → q'.behind = some l' →
      (q'.phase = q.phase ∨ q.phase ≠ .idle ∧ q'.phase ≠ .idle) →
      l' < l ∨ Interrupts q q' ∧ l' ≤ l + 7 →
      ∃ x' l' b', m'.user.scan p = some x' ∧ q'.behind = some l' ∧ Left q'.phase x' b' ∧
        (l' + 11 * b' < l + 11 * b ∨ Interrupts q q' ∧ l' + 11 * b' ≤ l + 11 * b + 7) := by
    intro l' huser hl' hphase hlt
    refine ⟨x, l', b, by rw [huser]; exact hx, hl', ?_, hlt.imp (by omega) fun h => ⟨h.1, by omega⟩⟩
    rcases hphase with hphase | ⟨hq, hq'⟩
    · rw [hphase]; exact hb
    · exact (left_iff hq').2 ((left_iff hq).1 hb)
  cases h with
  | @call c g hcall =>
    obtain ⟨rfl, hl', b', hb', hlt⟩ := nearer_call hx hrest hb hcall
    exact ⟨x, 10, b', hx, hl', hb', .inl (by omega)⟩
  | @act g hact =>
    cases hact with
    | start _ hnone => rw [hx] at hnone; cases hnone
    | finish _ => exact absurd (Function.update_self ..) hin
  | timer => cases hl; exact hstay rfl rfl (.inl rfl) (.inr ⟨.inl rfl, by omega⟩)
  | @preempt f hf =>
    have hl' : f.behind = some l := hl
    have hnext : (.yield f : Point n).behind = some (l + 4) := by rw [Point.behind, hl']; rfl
    exact hstay rfl hnext (.inl rfl) (.inr ⟨.inr ⟨f, rfl, rfl⟩, by omega⟩)
  | @killed a =>
    cases a with
    | timer => cases hl; exact hstay rfl rfl (.inl rfl) (.inl (by omega))
    | userret r => cases hl; exact hstay rfl rfl (.inl rfl) (.inl (by omega))
    | syscall c =>
      cases c with
      | semOpen s v => cases hl; exact hstay rfl rfl (.inl rfl) (.inl (by omega))
      | _ => cases hl
  | @killedCheck a =>
    rw [hk]
    rw [hk] at hstay
    cases a with
    | timer => cases hl; exact hstay rfl rfl (.inl rfl) (.inl (by omega))
    | userret r => cases hl; exact hstay rfl rfl (.inl rfl) (.inl (by omega))
    | syscall c =>
      cases c with
      | semOpen s v => cases hl; exact hstay rfl rfl (.inl rfl) (.inl (by omega))
      | _ => cases hl
  | @killedExit a =>
    cases a with
    | syscall c => cases c <;> cases hl
    | _ => cases hl
  | @enter c f hf =>
    cases c with
    | semOpen s v =>
      cases hl
      rw [enter] at hf
      split_ifs at hf with hcheck
      · cases hf
        refine hstay rfl rfl (.inr ⟨fun h => ?_, fun h => ?_⟩) (.inl (by omega)) <;> cases h
      · cases hf; exact hstay rfl rfl (.inl rfl) (.inl (by omega))
    | _ => cases hl
  | userret => cases hl; exact hstay rfl rfl (.inl rfl) (.inl (by omega))
  | timerYield => cases hl; exact hstay rfl rfl (.inl rfl) (.inl (by decide))
  | @resume r =>
    obtain ⟨c, k, rfl, hk'⟩ := hb
    cases hl
    refine ⟨k r, 0, b, ?_, rfl, hk' r, .inl (by omega)⟩
    show (Owners.resume p m.user r).scan p = some (k r)
    rw [Owners.resume, hx]
    exact Function.update_self ..
  | semOpen => cases hl; exact hstay rfl rfl (.inl rfl) (.inl (by omega))
  | openErr _ =>
    cases hl
    refine hstay rfl rfl (.inr ⟨fun h => ?_, fun h => ?_⟩) (.inl (by omega)) <;> cases h
  | openWrite _ =>
    cases hl
    refine hstay rfl rfl (.inr ⟨fun h => ?_, fun h => ?_⟩) (.inl (by omega)) <;> cases h
  | openRelease => cases hl; exact hstay rfl rfl (.inl rfl) (.inl (by omega))
  | @yield f =>
    obtain ⟨l₀, hl₀, rfl⟩ := Option.map_eq_some_iff.1 hl
    have hnext : (.yieldState f : Point n).behind = some (l₀ + 3) := by rw [Point.behind, hl₀]; rfl
    exact hstay rfl hnext (.inl rfl) (.inl (Nat.lt_succ_self _))
  | @yieldState f =>
    obtain ⟨l₀, hl₀, rfl⟩ := Option.map_eq_some_iff.1 hl
    have hnext : (.yieldSched f : Point n).behind = some (l₀ + 2) := by rw [Point.behind, hl₀]; rfl
    exact hstay rfl hnext (.inl rfl) (.inl (Nat.lt_succ_self _))
  | @yieldSched f =>
    obtain ⟨l₀, hl₀, rfl⟩ := Option.map_eq_some_iff.1 hl
    have hnext : (.yieldRelease f : Point n).behind = some (l₀ + 1) := by
      rw [Point.behind, hl₀]; rfl
    exact hstay rfl hnext (.inl rfl) (.inl (Nat.lt_succ_self _))
  | @yieldRelease f =>
    obtain ⟨l₀, hl₀, rfl⟩ := Option.map_eq_some_iff.1 hl
    exact hstay rfl hl₀ (.inl rfl) (.inl (Nat.lt_succ_self _))
  | _ => cases hl

/-- Behind its instructions a process is in get_empty_sem still. -/
theorem inScan_move (h : Moves allocators p m q q' m') (hq : q ≠ .free .user)
    (hx : m.user.scan p ≠ none) : m'.user.scan p ≠ none := by
  cases h with
  | call _ => exact absurd rfl hq
  | act _ => exact absurd rfl hq
  | @resume r =>
    show (Owners.resume p m.user r).scan p ≠ none
    rw [Owners.resume]
    split
    · rw [Owners.setScan_scan, Function.update_self]; exact Option.some_ne_none _
    · exact hx
  | _ => exact hx

/-! ## A call of get_empty_sem -/

/-- After `i` steps and `j` timer interrupts of a call, so many steps are left. -/
def Nearer (σ : KState n (Owners n) C) (p : Fin n) (i j : ℕ) : Prop :=
  ∃ x l b, σ.mem.user.scan p = some x ∧ (σ.pc p).behind = some l ∧ Left (σ.pc p).phase x b ∧
    i + (l + 11 * b) ≤ 5632 + 7 * j

theorem Alloc.nearer (h : Alloc σ) (hs : Step (code allocators) σ (some p) σ') (hin : InScan σ' p)
    (hn : Nearer σ p i j) :
    Nearer σ' p (i + 1) j ∨ Interrupts (σ.pc p) (σ'.pc p) ∧ Nearer σ' p i (j + 1) := by
  obtain ⟨x, l, b, hx, hl, hb, hle⟩ := hn
  obtain ⟨v, -, hrest⟩ := h.rest p x hx
  rcases step_cases hs with ⟨hf, -⟩ | ⟨p', q, hp, -, hq, hpc⟩
  · cases hf
  · cases hp
    have hself : σ'.pc p = q := by rw [hpc, Function.update_self]
    obtain ⟨x', l', b', hx', hl', hb', hlt⟩ := nearer_move hq (h.killed p) hx hrest hl hb hin
    rw [← hself] at hl' hb' hlt
    rcases hlt with hlt | ⟨hint, hlt⟩
    · exact .inl ⟨x', l', b', hx', hl', hb', by omega⟩
    · exact .inr ⟨hint, x', l', b', hx', hl', hb', by omega⟩

/-- **A call takes at most 5632 steps**, and 7 more for each timer interrupt. -/
theorem Alone.nearer (ht : ∀ s, InRange s → emptySem ≤ table s) (hg : g.Fresh table)
    (h : Alone (Starts table g) Orderly p v table₀ i j σ) : Nearer σ p i j := by
  induction h with
  | @start σ _ hscan hpc _ =>
    refine ⟨getEmptySem v, 0, 512, hscan, by rw [hpc]; rfl, ?_, by omega⟩
    rw [hpc]; exact getEmptySem_atMost v
  | own ha hs _ hin hni ih =>
    rcases (alloc_of_reach ht hg ha.reach).nearer hs hin ih with hn | ⟨hint, -⟩
    · exact hn
    · exact absurd hint hni
  | @interrupt σ σ' i j ha hs _ hin _ ih =>
    rcases (alloc_of_reach ht hg ha.reach).nearer hs hin ih with
      ⟨x, l, b, hx, hl, hb, hle⟩ | ⟨-, hn⟩
    · exact ⟨x, l, b, hx, hl, hb, by omega⟩
    · exact hn
  | other _ hs hp _ _ ih =>
    obtain ⟨hpc, hscan⟩ := trying_other hs hp
    obtain ⟨x, l, b, hx, hl, hb, hle⟩ := ih
    exact ⟨x, l, b, by rw [hscan]; exact hx, by rw [hpc]; exact hl, by rw [hpc]; exact hb, hle⟩

omit [DecidableEq C] in
/-- It has returned, or it goes on. -/
theorem Nearer.goes (h : Nearer σ p i j) : (∃ r, Returning σ p r) ∨ Goes σ p := by
  obtain ⟨x, l, b, hx, hl, -⟩ := h
  by_cases hq : σ.pc p = .free .user
  · cases x with
    | ret r => exact .inl ⟨r, hx, by rw [hq]; rfl⟩
    | call c k => exact .inr (.inr ⟨hq, c, k, hx⟩)
  · exact .inr (.inl (Point.behind_exec hl hq))

omit [DecidableEq C] in
theorem Nearer.orderly (h : Nearer σ p i j) : Orderly σ p := by
  obtain ⟨x, l, b, -, hl, -⟩ := h
  intro s _
  refine ⟨fun hp => ?_, fun hp => ?_⟩
  · rw [hp] at hl; cases hl
  · rw [hp] at hl; cases hl

theorem not_interrupts (hy : q'.yields = false) : ¬ Interrupts q q' := by
  rintro (rfl | ⟨f, -, rfl⟩)
  · cases hy
  · cases hy

/-- The next step of a call that has the CPU, and does not wait for a lock. -/
theorem Alloc.goes_step (h : Alloc σ) {c₀ : C} (hc : σ.ctx c₀ = .running p)
    (hquiet : Discipline.Quiet σ c₀) (hl : (σ.pc p).behind = some l) (hy : (σ.pc p).yields = false)
    (hx : σ.mem.user.scan p = some x) (hgoes : Goes σ p) :
    ∃ σ', Step (code allocators) σ (some p) σ' ∧ σ'.ctx = σ.ctx ∧ Discipline.Quiet σ' c₀ ∧
      InScan σ' p ∧ (σ'.pc p).yields = false := by
  rcases hgoes with ⟨i, hi⟩ | ⟨hq, c, k, hk⟩
  · obtain ⟨hnext, hsched⟩ := Point.behind_next hl hy hi
    obtain ⟨σ', hs, hctx, hquiet', hpc, hm⟩ := h.kernel.disc.runs hc hquiet (.code hi) hsched
    refine ⟨σ', hs, hctx, hquiet', ?_, by rw [hpc, Function.update_self]; exact hnext⟩
    have hmove := does_moves (U := allocators) (.code hi)
    rw [InScan, hm]
    refine inScan_move hmove (fun hq => ?_) (by rw [hx]; exact Option.some_ne_none x)
    rw [hq] at hi; cases hi
  · have hdoes : Does allocators p (σ.pc p) σ.mem
        (.run (σ.mem.setUser σ.mem.user) (.free (.killed (.syscall c)))) := by
      rw [hq]; exact .call (.attempt hk)
    obtain ⟨σ', hs, hctx, hquiet', hpc, hm⟩ :=
      h.kernel.disc.runs hc hquiet hdoes fun _ h => by cases h
    refine ⟨σ', hs, hctx, hquiet', ?_, by rw [hpc, Function.update_self]; rfl⟩
    rw [InScan, hm]
    show σ.mem.user.scan p ≠ none
    rw [hk]; exact Option.some_ne_none _

/-- **A call returns**, when it has the CPU and does not wait for a lock.  By induction on
    the steps that are left. -/
theorem Alone.finishes (ht : ∀ s, InRange s → emptySem ≤ table s) (hg : g.Fresh table) {c₀ : C} :
    ∀ (N : ℕ) {i : ℕ} {σ : KState n (Owners n) C},
      Alone (Starts table g) Orderly p v table₀ i 0 σ → 5632 < i + N → σ.ctx c₀ = .running p →
      Discipline.Quiet σ c₀ → (σ.pc p).yields = false →
      ∃ (k : ℕ) (σ' : KState n (Owners n) C) (r : Int32),
        Alone (Starts table g) Orderly p v table₀ k 0 σ' ∧ Returning σ' p r
  | 0, i, σ, ha, hN, _, _, _ => by
    obtain ⟨x, l, b, -, -, -, hle⟩ := ha.nearer ht hg
    omega
  | N + 1, i, σ, ha, hN, hc, hquiet, hy => by
    have hn := ha.nearer ht hg
    rcases hn.goes with ⟨r, hret⟩ | hgoes
    · exact ⟨i, σ, r, ha, hret⟩
    · obtain ⟨x, l, b, hx, hl, -⟩ := id hn
      obtain ⟨σ', hs, hctx, hquiet', hin, hy'⟩ :=
        (alloc_of_reach ht hg ha.reach).goes_step hc hquiet hl hy hx hgoes
      exact finishes ht hg N (.own ha hs hn.orderly hin (not_interrupts hy')) (by omega)
        (by rw [hctx]; exact hc) hquiet' hy'

/-! ## Running -/

/-- The next instruction of a process that calls get_empty_sem(0) once. -/
def allocate (p : Fin n) (q : Point n) (m : Mem n (Owners n)) : Option (KInstr n (Owners n)) :=
  match q with
  | .free .user =>
    match m.user.scan p with
    | some (.call c _) => some (.run (m.setUser m.user) (.free (.killed (.syscall c))))
    | some (.ret _) => none
    | none => some (.run (m.setUser (m.user.setScan p (some (getEmptySem 0)))) (.free .user))
  | q => exec allocators p q m

theorem allocate_does {i : KInstr n (Owners n)} (h : allocate p q m = some i) :
    Does allocators p q m i := by
  unfold allocate at h
  split at h
  · split at h
    · rename_i c k hx
      cases h; exact .call (.attempt hx)
    · cases h
    · rename_i hx
      cases h; exact .act (.start (by decide) hx)
  · exact .code h

/-- The next step is neither the write of a sem_up nor that of a sem_close. -/
def opens (σ : KState n (Owners n) C) (p : Fin n) : Bool :=
  match σ.pc p with
  | .upWrite _ => false
  | .closeWrite _ => false
  | _ => true

omit [DecidableEq C] in
theorem opens_orderly (h : opens σ p = true) : Orderly σ p := by
  intro s _
  refine ⟨fun hp => ?_, fun hp => ?_⟩
  · simp [opens, hp] at h
  · simp [opens, hp] at h

/-- Nobody has a semaphore. -/
def noOwners : Owners n := { scan := fun _ => none, owned := fun _ => [] }

theorem noOwners_fresh (table : Int32 → Int32) : (noOwners : Owners n).Fresh table :=
  ⟨fun _ => rfl, nofun, fun _ => .nil, nofun⟩

/-- The state after a schedule. -/
def runAllocators (table : Int32 → Int32) (cs : List (Fin n)) :
    Option (KState n (Owners n) (Fin n)) :=
  ticks (code allocators) allocate opens cs (boot table noOwners)

theorem runAllocators_reach {cs : List (Fin n)} {σ : KState n (Owners n) (Fin n)}
    (h : runAllocators table cs = some σ) :
    Reach (code allocators) (Starts table noOwners) Orderly σ :=
  ticks_reach (fun _ _ hok => opens_orderly hok) (fun _ _ _ _ hi => allocate_does hi)
    (.init (boot_starts ..)) h

/-- A process that calls get_empty_sem(0), on the only CPU. -/
theorem runAllocators_calls (table : Int32 → Int32) :
    ∃ σ : KState 1 (Owners 1) (Fin 1), Reach (code allocators) (Starts table noOwners) Orderly σ ∧
      σ.mem.user.scan 0 = some (getEmptySem 0) ∧ σ.pc 0 = .free .user ∧
      σ.ctx 0 = .running 0 ∧ σ.mem.value = table := by
  have hrun : (runAllocators table [(0 : Fin 1), 0, 0, 0]).map (fun σ => (σ.mem.user.scan 0, σ.pc 0,
      σ.ctx 0, σ.mem.value)) = some (some (getEmptySem 0), .free .user, .running 0, table) := rfl
  obtain ⟨σ, hσ, hσ'⟩ := Option.map_eq_some_iff.1 hrun
  simp only [Prod.mk.injEq] at hσ'
  exact ⟨σ, runAllocators_reach hσ, hσ'⟩

/-! ## Allocation -/

/-- **Slot allocation is exclusive and exact.**  No two processes own the same slot.  What
    get_empty_sem returns is -1 or a slot that was closed when the call took it.  A call that
    runs alone takes a bounded number of steps and returns the first slot that was closed,
    which it has opened, or -1 if all were open, and then it has changed nothing.  A call that
    has the CPU and does not wait for a lock returns. -/
theorem allocation_of_reach (ht : ∀ s, InRange s → emptySem ≤ table s) (hg : g.Fresh table)
    (h : Reach (code allocators) (Starts table g) Orderly σ) :
    (∀ p t s, s ∈ Holds σ p → s ∈ Holds σ t → p = t) ∧
    (∀ p r, Returning σ p r → r ≠ -1 →
      InRange r ∧ Took (Starts table g) Orderly p r σ ∧ r ∈ Holds σ p) ∧
    (∀ p v table₀ i j, Alone (Starts table g) Orderly p v table₀ i j σ →
      i ≤ 5632 + 7 * j ∧ ((∃ r, Returning σ p r) ∨ Goes σ p) ∧ ∀ r, Returning σ p r →
        (∃ i < 512, table₀ (.ofNat i) = emptySem ∧ (∀ j < i, table₀ (.ofNat j) ≠ emptySem) ∧
          r = .ofNat i ∧ σ.mem.value = Function.update table₀ (.ofNat i) v) ∨
        (∀ i < 512, table₀ (.ofNat i) ≠ emptySem) ∧ r = -1 ∧ σ.mem.value = table₀) ∧
    ∀ p v c₀, σ.mem.user.scan p = some (getEmptySem v) → σ.pc p = .free .user →
      σ.ctx c₀ = .running p → Discipline.Quiet σ c₀ →
      ∃ (k : ℕ) (σ' : KState n (Owners n) C) (r : Int32),
        Alone (Starts table g) Orderly p v σ.mem.value k 0 σ' ∧ Returning σ' p r := by
  have halloc := alloc_of_reach ht hg h
  refine ⟨halloc.apart, fun p r hret hne => ?_, fun p v table₀ i j ha => ?_, ?_⟩
  · have htry : trying (σ.pc p).phase (σ.mem.user.scan p) = some (.ret r) := by
      rw [hret.scan, hret.idle, trying_idle]
    obtain ⟨v, -, hrest⟩ := halloc.rest p _ hret.scan
    refine ⟨hrest.ret.resolve_left hne, tookInv_of_reach ht hg h p r htry hne, ?_⟩
    rw [Holds, holds, htry]
    simp [Calls.taken, hne]
  · have hn := ha.nearer ht hg
    refine ⟨?_, hn.goes, fun r hret => ?_⟩
    · obtain ⟨x, l, b, -, -, -, hle⟩ := hn
      omega
    · obtain ⟨x, htry, hscans⟩ := ha.scans ht hg (ha.nonneg ht hg)
      rw [hret.scan, hret.idle, trying_idle] at htry
      cases htry
      exact hscans.ret
  · intro p v c₀ hscan hpc hc hquiet
    exact Alone.finishes ht hg 5633 (.start h hscan hpc rfl) (by omega) hc hquiet
      (by rw [hpc]; rfl)

/-- Two processes that are both about to open the first slot get one each.  A process that
    runs alone gets the last slot when only that one is closed, and -1 when none is. -/
theorem allocation_twoProcesses :
    (∃ σ : KState 2 (Owners 2) (Fin 2), 0 ∈ Holds σ 0 ∧ 1 ∈ Holds σ 1 ∧
      Took (Starts (fun _ => emptySem) noOwners) Orderly 0 0 σ ∧
      Took (Starts (fun _ => emptySem) noOwners) Orderly 1 1 σ) ∧
    (∃ (k : ℕ) (σ : KState 1 (Owners 1) (Fin 1)), k ≤ 5632 ∧
      Alone (Starts (Function.update (fun _ => 0) 511 emptySem) noOwners) Orderly 0 0
        (Function.update (fun _ => 0) 511 emptySem) k 0 σ ∧ Returning σ 0 511 ∧
      σ.mem.value = fun _ => 0) ∧
    ∃ (k : ℕ) (σ : KState 1 (Owners 1) (Fin 1)), k ≤ 5632 ∧
      Alone (Starts (fun _ => 0) noOwners) Orderly 0 0 (fun _ => 0) k 0 σ ∧ Returning σ 0 (-1) ∧
      σ.mem.value = fun _ => 0 := by
  have halone : ∀ table : Int32 → Int32, (∀ s, InRange s → emptySem ≤ table s) →
      ∃ (k : ℕ) (σ : KState 1 (Owners 1) (Fin 1)) (r : Int32), k ≤ 5632 ∧
        Alone (Starts table noOwners) Orderly 0 0 table k 0 σ ∧ Returning σ 0 r ∧
        ((∃ i < 512, table (.ofNat i) = emptySem ∧ (∀ j < i, table (.ofNat j) ≠ emptySem) ∧
          r = .ofNat i ∧ σ.mem.value = Function.update table (.ofNat i) 0) ∨
        (∀ i < 512, table (.ofNat i) ≠ emptySem) ∧ r = -1 ∧ σ.mem.value = table) := by
    intro table ht
    obtain ⟨σ, hreach, hscan, hpc, hc, hvalue⟩ := runAllocators_calls table
    obtain ⟨-, -, -, hreturns⟩ := allocation_of_reach ht (noOwners_fresh _) hreach
    obtain ⟨k, σ', r, ha, hret⟩ := hreturns 0 0 0 hscan hpc hc fun _ _ _ => Subsingleton.elim ..
    rw [hvalue] at ha
    obtain ⟨-, -, hexact, -⟩ := allocation_of_reach ht (noOwners_fresh _) ha.reach
    obtain ⟨hk, -, hr⟩ := hexact 0 0 table k 0 ha
    exact ⟨k, σ', r, hk, ha, hret, hr r hret⟩
  refine ⟨?_, ?_, ?_⟩
  · have hrun : (runAllocators (fun _ => emptySem) (List.replicate 8 (0 : Fin 2) ++
        List.replicate 8 1 ++ List.replicate 7 0 ++ List.replicate 18 1)).map
          (fun σ => (σ.mem.user.scan 0, (σ.pc 0).phase, σ.mem.user.scan 1, (σ.pc 1).phase)) =
        some (some (.ret 0), .idle, some (.ret 1), .idle) := rfl
    obtain ⟨σ, hσ, hσ'⟩ := Option.map_eq_some_iff.1 hrun
    simp only [Prod.mk.injEq] at hσ'
    obtain ⟨hscan, hidle, hscan', hidle'⟩ := hσ'
    obtain ⟨-, hresult, -⟩ := allocation_of_reach (fun _ _ => Int32.le_refl _)
      (noOwners_fresh _) (runAllocators_reach hσ)
    obtain ⟨-, htook, hholds⟩ := hresult 0 0 ⟨hscan, hidle⟩ (by decide)
    obtain ⟨-, htook', hholds'⟩ := hresult 1 1 ⟨hscan', hidle'⟩ (by decide)
    exact ⟨σ, hholds, hholds', htook, htook'⟩
  · have ht : ∀ s : Int32, InRange s →
        emptySem ≤ Function.update (fun _ => (0 : Int32)) 511 emptySem s := by
      intro s _
      rw [Function.update_apply]
      split_ifs
      · exact Int32.le_refl _
      · exact (by decide : emptySem ≤ 0)
    obtain ⟨k, σ, r, hk, halone, hret, hexact⟩ := halone _ ht
    rcases hexact with ⟨i, -, hempty, -, rfl, hset⟩ | ⟨hopen, -⟩
    · have hlast : Int32.ofNat i = 511 := by
        by_contra hne
        rw [Function.update_of_ne hne] at hempty
        exact absurd hempty (by decide)
      rw [hlast] at hret hset
      refine ⟨k, σ, hk, halone, hret, ?_⟩
      rw [hset, Function.update_idem, Function.update_eq_self_iff]
    · exact absurd (hopen 511 (by decide)) (by decide)
  · obtain ⟨k, σ, r, hk, halone, hret, hexact⟩ := halone (fun _ => 0) fun _ _ =>
      (by decide : emptySem ≤ 0)
    rcases hexact with ⟨i, -, hempty, -⟩ | ⟨-, rfl, hkept⟩
    · exact absurd hempty (by decide)
    · exact ⟨k, σ, hk, halone, hret, hkept⟩

end OSLabs.User
