/-
  What get_empty_sem has done, over whole runs of processes that allocate.

  The slot of a result was closed when a sem_open of the call took it (`Took`).  A call
  during which nobody else changes the table (`Alone`) has passed the slots that are
  open, and takes the first one that is closed (`Scans`).
-/
import OSLabs.User.Allocators

namespace OSLabs.User

open LockMachine OSLabs.Kernel AtomicObject

variable {n : ℕ} {C : Type} [DecidableEq C] {p t : Fin n} {s v r : Int32} {q q' : Point n}
  {m m' : Mem n (Owners n)} {x : Calls} {c : Call} {k : Int32 → Calls} {i j : ℕ}
  {σ σ' : KState n (Owners n) C} {a : Option (Fin n)} {table table₀ : Int32 → Int32} {g : Owners n}
  {init : KState n (Owners n) C → Prop} {ok : KState n (Owners n) C → Fin n → Prop}

/-- The process is in get_empty_sem. -/
def InScan (σ : KState n (Owners n) C) (p : Fin n) : Prop := σ.mem.user.scan p ≠ none

instance (σ : KState n (Owners n) C) (p : Fin n) : Decidable (InScan σ p) :=
  inferInstanceAs (Decidable (_ ≠ _))

/-- get_empty_sem is about to return `r`. -/
structure Returning (σ : KState n (Owners n) C) (p : Fin n) (r : Int32) : Prop where
  scan : σ.mem.user.scan p = some (.ret r)
  idle : (σ.pc p).phase = .idle

/-- The step from `q` to `q'` is a timer interrupt. -/
def Interrupts (q q' : Point n) : Prop :=
  q' = .free (.killed .timer) ∨ ∃ f, q = .free f ∧ q' = .yield f

/-- The slot `s` was closed when a sem_open of the process `p` took it, and the
    process is still in the call of get_empty_sem that it was in then. -/
inductive Took (init : KState n (Owners n) C → Prop) (ok : KState n (Owners n) C → Fin n → Prop)
    (p : Fin n) (s : Int32) : KState n (Owners n) C → Prop
  | take {σ σ' : KState n (Owners n) C} {v : Int32} : Reach (code allocators) init ok σ →
      Step (code allocators) σ (some p) σ' → ok σ p → σ.pc p = .openTest s v →
      σ.mem.value s = emptySem → InScan σ' p → Took init ok p s σ'
  | step {σ σ' : KState n (Owners n) C} {a : Option (Fin n)} : Took init ok p s σ →
      Step (code allocators) σ a σ' → (∀ t, a = some t → ok σ t) → InScan σ' p →
      Took init ok p s σ'

/-- The process `p` called get_empty_sem with `v` when the table was `table₀`; since then
    it has taken `i` steps and `j` timer interrupts, and nobody else has changed the
    table. -/
inductive Alone (init : KState n (Owners n) C → Prop) (ok : KState n (Owners n) C → Fin n → Prop)
    (p : Fin n) (v : Int32) (table₀ : Int32 → Int32) : ℕ → ℕ → KState n (Owners n) C → Prop
  | start {σ : KState n (Owners n) C} : Reach (code allocators) init ok σ →
      σ.mem.user.scan p = some (getEmptySem v) → σ.pc p = .free .user → σ.mem.value = table₀ →
      Alone init ok p v table₀ 0 0 σ
  | own {σ σ' : KState n (Owners n) C} {i j : ℕ} : Alone init ok p v table₀ i j σ →
      Step (code allocators) σ (some p) σ' → ok σ p → InScan σ' p →
      ¬ Interrupts (σ.pc p) (σ'.pc p) → Alone init ok p v table₀ (i + 1) j σ'
  | interrupt {σ σ' : KState n (Owners n) C} {i j : ℕ} : Alone init ok p v table₀ i j σ →
      Step (code allocators) σ (some p) σ' → ok σ p → InScan σ' p →
      Interrupts (σ.pc p) (σ'.pc p) → Alone init ok p v table₀ i (j + 1) σ'
  | other {σ σ' : KState n (Owners n) C} {a : Option (Fin n)} {i j : ℕ} :
      Alone init ok p v table₀ i j σ → Step (code allocators) σ a σ' → a ≠ some p →
      (∀ t, a = some t → ok σ t) → σ'.mem.value = σ.mem.value → Alone init ok p v table₀ i j σ'

/-- Nobody is in get_empty_sem, and each process owns open slots of its own. -/
structure Owners.Fresh (table : Int32 → Int32) (g : Owners n) : Prop where
  scan : ∀ p, g.scan p = none
  held : ∀ p, ∀ s ∈ g.owned p, InRange s ∧ table s ≠ emptySem
  nodup : ∀ p, (g.owned p).Nodup
  apart : ∀ p t s, s ∈ g.owned p → s ∈ g.owned t → p = t

omit [DecidableEq C] in
theorem Starts.alloc (h : Starts table g σ) (ht : ∀ s, InRange s → emptySem ≤ table s)
    (hg : g.Fresh table) : Alloc σ := by
  have hholds : ∀ p, Holds σ p = g.owned p := by
    intro p
    simp [Holds, holds, h.pc, h.user, hg.scan, Point.phase]
  constructor
  case kernel => exact h.kinv
  case values => intro s hs; exact h.valueInv (ht s hs)
  case waits =>
    intro s _ p hp
    rw [h.pc] at hp; exact hp.elim
  case killed => exact h.killed
  case alive =>
    intro p
    rw [h.pc]
    exact ⟨by simp [Point.phase], by simp⟩
  case rest =>
    intro p x hx
    rw [h.user, hg.scan] at hx; cases hx
  case called => intro p; rw [h.pc]; exact .idle _
  case held =>
    intro p s hs
    rw [hholds] at hs
    obtain ⟨hr, hne⟩ := hg.held p s hs
    exact ⟨hr, by rw [h.isOpen]; exact decide_eq_true hne⟩
  case nodup => intro p; rw [hholds]; exact hg.nodup p
  case apart =>
    intro p t s hs hs'
    rw [hholds] at hs hs'
    exact hg.apart p t s hs hs'

theorem alloc_of_reach (ht : ∀ s, InRange s → emptySem ≤ table s) (hg : g.Fresh table)
    (h : Reach (code allocators) (Starts table g) Orderly σ) : Alloc σ :=
  h.invariant (fun _ hi => Starts.alloc hi ht hg) fun _ _ _ hi hs hok => hi.step hs hok

theorem Alone.reach (h : Alone init ok p v table₀ i j σ) : Reach (code allocators) init ok σ := by
  induction h with
  | start hr _ _ _ => exact hr
  | own _ hs hok _ _ ih => exact .step ih hs fun t ht => by cases ht; exact hok
  | interrupt _ hs hok _ _ ih => exact .step ih hs fun t ht => by cases ht; exact hok
  | other _ hs _ hok _ ih => exact .step ih hs hok

/-! ## One step -/

/-- A step of another process leaves a process in get_empty_sem where it is. -/
theorem trying_other (hs : Step (code allocators) σ a σ') (ha : a ≠ some p) :
    σ'.pc p = σ.pc p ∧ σ'.mem.user.scan p = σ.mem.user.scan p := by
  rcases step_cases hs with ⟨-, hpc, hm⟩ | ⟨t, q, rfl, -, hq, hpc⟩
  · rcases hm with hm | ⟨t, -, hm⟩ <;> rw [hpc, hm] <;> exact ⟨rfl, rfl⟩
  · have hpt : p ≠ t := by rintro rfl; exact ha rfl
    exact ⟨by rw [hpc, Function.update_of_ne hpt], (reply_frame hq.reply hpt).1⟩

/-- A process that is not in get_empty_sem may call it. -/
theorem reply_scan_none (h : Reply allocators p m m' q q') (hx : m.user.scan p = none) :
    m'.user.scan p = none ∨ q'.phase = .idle ∧ ∃ v, m'.user.scan p = some (getEmptySem v) := by
  cases h with
  | stutter _ huser _ _ => rw [huser]; exact .inl hx
  | invoke _ hcall _ _ _ =>
    generalize m'.user = g' at hcall ⊢
    cases hcall <;> exact .inl hx
  | respond _ huser _ _ _ =>
    rw [huser]; simp only [allocators, Owners.resume, hx]; exact .inl trivial
  | act _ hact hidle _ _ =>
    generalize m'.user = g' at hact ⊢
    cases hact with
    | @start v _ _ => exact .inr ⟨hidle, v, Function.update_self ..⟩
    | finish hx' => rw [hx] at hx'; cases hx'
  | exit _ huser _ _ => rw [huser]; exact .inl hx
  | perform _ _ _ huser _ _ => rw [huser]; exact .inl hx

/-- What a sem_open of get_empty_sem returns, and what it does. -/
theorem attempt_cases (hi : i < 512) (hv : 0 ≤ v)
    (h : Outcome m m' (.semOpen (.ofNat i) v) r) :
    (r = err ∧ m'.value = m.value ∧ m.value (.ofNat i) ≠ emptySem) ∨
    (r = success ∧ m.value (.ofNat i) = emptySem ∧
      m'.value = Function.update m.value (.ofNat i) v) := by
  generalize hc : Call.semOpen (.ofNat i) v = c at h
  cases h with
  | reject hrej _ _ =>
    subst hc
    rcases hrej with hneg | hrej
    · exact absurd hneg (Int32.not_lt.2 hv)
    · exact absurd hrej (ofNat_inRange hi).not_rejected
  | openErr hne hvalue _ => cases hc; exact .inl ⟨rfl, hvalue, hne⟩
  | openOk hempty hvalue _ => cases hc; exact .inr ⟨rfl, hempty, hvalue⟩
  | _ => cases hc

/-- A slot that get_empty_sem got was closed when it took it. -/
def TookInv (init : KState n (Owners n) C → Prop) (ok : KState n (Owners n) C → Fin n → Prop)
    (σ : KState n (Owners n) C) : Prop :=
  ∀ p r, trying (σ.pc p).phase (σ.mem.user.scan p) = some (.ret r) → r ≠ -1 → Took init ok p r σ

/-- get_empty_sem(v) does not begin with a return. -/
theorem getEmptySem_ne_ret (v r : Int32) : getEmptySem v ≠ .ret r := by
  rw [getEmptySem_eq, getEmptySemFrom_call (by decide)]
  exact nofun

theorem getEmptySemFrom_ret (hi : i ≤ 512) (h : getEmptySemFrom v i = .ret r) :
    i = 512 ∧ r = -1 := by
  rcases Nat.lt_or_eq_of_le hi with hlt | rfl
  · rw [getEmptySemFrom_call hlt] at h; cases h
  · rw [getEmptySemFrom_end] at h; cases h; exact ⟨rfl, rfl⟩

theorem TookInv.step (h : TookInv init ok σ) (halloc : Alloc σ) (halloc' : Alloc σ')
    (hr : Reach (code allocators) init ok σ) (hs : Step (code allocators) σ a σ')
    (hok : ∀ t, a = some t → ok σ t) : TookInv init ok σ' := by
  intro p r htry' hne
  have hin : InScan σ' p := by
    intro hnone
    rw [hnone, trying_none] at htry'; cases htry'
  by_cases ha : a = some p
  · subst ha
    rcases step_cases hs with ⟨hf, -⟩ | ⟨p', q, hp, -, hq, hpc⟩
    · cases hf
    · cases hp
      have hself : σ'.pc p = q := by rw [hpc, Function.update_self]
      have halive : q.phase ≠ .exited := by rw [← hself]; exact (halloc'.alive p).1
      rw [hself] at htry'
      cases hx : σ.mem.user.scan p with
      | none =>
        rcases reply_scan_none hq.reply hx with hnone | ⟨hidle, v, hstart⟩
        · exact absurd hnone hin
        · rw [hstart, hidle, trying_idle] at htry'
          exact absurd (Option.some.inj htry') (getEmptySem_ne_ret v r)
      | some x =>
        obtain ⟨v, hv, hrest⟩ := halloc.rest p x hx
        cases reply_tries hq.reply hx (halloc.called p) hrest halive with
        | same htry _ _ _ _ _ =>
          refine .step (h p r ?_ hne) hs hok hin
          rw [← htry', htry, hx]
        | @attempt c k r' hcall hinv hresp hout hpoint huser =>
          subst hcall
          obtain ⟨i, hi, rfl, hk⟩ := hrest.call
          rw [huser, hx, hresp, trying_responded, hk] at htry'
          rcases attempt_cases hi hv hout with ⟨rfl, -, -⟩ | ⟨rfl, hempty, -⟩
          · rw [if_pos (show err = 0 from rfl)] at htry'
            exact absurd (getEmptySemFrom_ret hi (Option.some.inj htry')).2 hne
          · rw [if_neg (by decide)] at htry'
            cases htry'
            exact .take hr hs (hok p rfl) (hpoint rfl) hempty hin
        | finish _ _ _ huser _ _ =>
          rw [InScan, huser, Owners.setOwned_scan, Owners.setScan_scan, Function.update_self] at hin
          exact absurd rfl hin
  · obtain ⟨hpc, hscan⟩ := trying_other hs ha
    rw [hpc, hscan] at htry'
    exact .step (h p r htry' hne) hs hok hin

theorem tookInv_of_reach (ht : ∀ s, InRange s → emptySem ≤ table s) (hg : g.Fresh table)
    (h : Reach (code allocators) (Starts table g) Orderly σ) :
    TookInv (Starts table g) Orderly σ := by
  induction h with
  | init hi =>
    intro p r htry _
    rw [hi.user, hg.scan, trying_none] at htry
    cases htry
  | step hr hs hok ih =>
    exact ih.step (alloc_of_reach ht hg hr) (alloc_of_reach ht hg (.step hr hs hok)) hr hs hok

/-! ## A call that runs alone -/

/-- What is left of a call with `v` that began with `table₀`: all slots before the next
    one are open, and nothing has changed; or it has opened the first slot that was
    closed. -/
inductive Scans (v : Int32) (table₀ value : Int32 → Int32) : Calls → Prop
  | more {i : ℕ} : i ≤ 512 → (∀ j < i, table₀ (.ofNat j) ≠ emptySem) → value = table₀ →
      Scans v table₀ value (getEmptySemFrom v i)
  | got {i : ℕ} : i < 512 → (∀ j < i, table₀ (.ofNat j) ≠ emptySem) →
      table₀ (.ofNat i) = emptySem → value = Function.update table₀ (.ofNat i) v →
      Scans v table₀ value (.ret (.ofNat i))

/-- One sem_open of the call. -/
theorem Scans.attempt (h : Scans v table₀ m.value (.call c k)) (hv : 0 ≤ v)
    (hout : Outcome m m' c r) : Scans v table₀ m'.value (k r) := by
  generalize hx : Calls.call c k = x at h
  cases h with
  | @more i hi hopen hvalue =>
    rcases Nat.lt_or_eq_of_le hi with hlt | rfl
    · rw [getEmptySemFrom_call hlt] at hx
      cases hx
      beta_reduce
      rcases attempt_cases hlt hv hout with ⟨rfl, hsame, hne⟩ | ⟨rfl, hempty, hset⟩
      · rw [if_pos (show err = 0 from rfl)]
        refine .more hlt (fun j hj => ?_) (hsame.trans hvalue)
        rcases Nat.lt_succ_iff_lt_or_eq.1 hj with hj | rfl
        · exact hopen j hj
        · rw [← hvalue]; exact hne
      · rw [if_neg (by decide)]
        exact .got hlt hopen (by rw [← hvalue]; exact hempty) (by rw [hset, hvalue])
    · cases hx
  | got _ _ _ _ => cases hx

/-- What a call returns that runs alone. -/
theorem Scans.ret {value : Int32 → Int32} (h : Scans v table₀ value (.ret r)) :
    (∃ i < 512, table₀ (.ofNat i) = emptySem ∧ (∀ j < i, table₀ (.ofNat j) ≠ emptySem) ∧
      r = .ofNat i ∧ value = Function.update table₀ (.ofNat i) v) ∨
    (∀ i < 512, table₀ (.ofNat i) ≠ emptySem) ∧ r = -1 ∧ value = table₀ := by
  generalize hx : Calls.ret r = x at h
  cases h with
  | more hi hopen hvalue =>
    obtain ⟨rfl, rfl⟩ := getEmptySemFrom_ret hi hx.symm
    exact .inr ⟨hopen, rfl, hvalue⟩
  | @got i hi hopen hempty hvalue =>
    cases hx
    exact .inl ⟨i, hi, hempty, hopen, rfl, hvalue⟩

/-- Its own step. -/
theorem Scans.step (halloc : Alloc σ) (halloc' : Alloc σ')
    (hs : Step (code allocators) σ (some p) σ') (hin : InScan σ' p)
    (htry : trying (σ.pc p).phase (σ.mem.user.scan p) = some x)
    (hv : 0 ≤ v) (h : Scans v table₀ σ.mem.value x) :
    ∃ x', trying (σ'.pc p).phase (σ'.mem.user.scan p) = some x' ∧
      Scans v table₀ σ'.mem.value x' := by
  rcases step_cases hs with ⟨hf, -⟩ | ⟨p', q, hp, -, hq, hpc⟩
  · cases hf
  · cases hp
    have hself : σ'.pc p = q := by rw [hpc, Function.update_self]
    have halive : q.phase ≠ .exited := by rw [← hself]; exact (halloc'.alive p).1
    rw [hself]
    cases hx : σ.mem.user.scan p with
    | none => rw [hx, trying_none] at htry; cases htry
    | some y =>
      rw [hx] at htry
      obtain ⟨w, -, hrest⟩ := halloc.rest p y hx
      cases reply_tries hq.reply hx (halloc.called p) hrest halive with
      | same hsame _ hvalue _ _ _ =>
        exact ⟨x, hsame.trans htry, by rw [hvalue]; exact h⟩
      | @attempt c k r hcall hinv hresp hout _ huser =>
        subst hcall
        rw [hinv, trying_invoked] at htry
        cases htry
        exact ⟨k r, by rw [hresp, huser, hx]; rfl, h.attempt hv hout⟩
      | finish _ _ _ huser _ _ =>
        rw [InScan, huser, Owners.setOwned_scan, Owners.setScan_scan, Function.update_self] at hin
        exact absurd rfl hin

/-- What a call that runs alone has done. -/
theorem Alone.scans (ht : ∀ s, InRange s → emptySem ≤ table s) (hg : g.Fresh table) (hv : 0 ≤ v)
    (h : Alone (Starts table g) Orderly p v table₀ i j σ) :
    ∃ x, trying (σ.pc p).phase (σ.mem.user.scan p) = some x ∧ Scans v table₀ σ.mem.value x := by
  have halloc : ∀ {i j σ}, Alone (C := C) (Starts table g) Orderly p v table₀ i j σ → Alloc σ :=
    fun h => alloc_of_reach ht hg h.reach
  induction h with
  | start _ hscan hpc htable =>
    refine ⟨getEmptySem v, by rw [hscan, hpc]; exact trying_idle _, ?_⟩
    rw [getEmptySem_eq]
    exact .more (Nat.zero_le _) (fun j hj => absurd hj (Nat.not_lt_zero j)) htable
  | own ha hs hok hin hni ih =>
    obtain ⟨x, htry, hx⟩ := ih
    exact hx.step (halloc ha) (halloc (.own ha hs hok hin hni)) hs hin htry hv
  | interrupt ha hs hok hin hi ih =>
    obtain ⟨x, htry, hx⟩ := ih
    exact hx.step (halloc ha) (halloc (.interrupt ha hs hok hin hi)) hs hin htry hv
  | other _ hs hp _ hvalue ih =>
    obtain ⟨x, htry, hx⟩ := ih
    obtain ⟨hpc, hscan⟩ := trying_other hs hp
    exact ⟨x, by rw [hpc, hscan]; exact htry, by rw [hvalue]; exact hx⟩

/-- The argument of a call is not negative. -/
theorem Alone.nonneg (ht : ∀ s, InRange s → emptySem ≤ table s) (hg : g.Fresh table)
    (h : Alone (Starts table g) Orderly p v table₀ i j σ) : 0 ≤ v := by
  induction h with
  | start hr hscan _ _ =>
    obtain ⟨w, hw, hrest⟩ := (alloc_of_reach ht hg hr).rest p _ hscan
    rw [getEmptySem_eq, getEmptySemFrom_call (by decide)] at hrest
    obtain ⟨i, -, hc, -⟩ := hrest.call
    rwa [(Call.semOpen.inj hc).2]
  | own _ _ _ _ _ ih => exact ih
  | interrupt _ _ _ _ _ ih => exact ih
  | other _ _ _ _ _ ih => exact ih

end OSLabs.User
