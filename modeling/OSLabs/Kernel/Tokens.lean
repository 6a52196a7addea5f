/-
  The kernel's semaphores refine atomic counters.

  As long as no semaphore is closed and no sem_up overflows, each run of the
  kernel is a run of the array of counting semaphores (`atomic_of_reach`), and
  the value of a semaphore is what it was opened with, plus its sem_ups, less
  its sem_downs.
-/
import OSLabs.Kernel.Atomic

namespace OSLabs.Kernel

open LockMachine AtomicObject

variable {n : ℕ} {G C : Type} [DecidableEq C] {U : UserSys n G} {p : Fin n} {s : Int32}
  {σ σ' : KState n G C} {a : Option (Fin n)} {table : Int32 → Int32} {g : G}

/-! ## Tokens -/

/-- The tokens that the semaphore was opened with, at the start or later. -/
def initially (table : Int32 → Int32) (s : Int32) (log : List (Fin n × Call × Int32)) : Option ℤ :=
  (slot (table s)).or (log.findSome? fun e =>
    match e.2 with
    | (.semOpen s' v, r) => if s' = s ∧ r = success then some v.toInt else none
    | _ => none)

/-- The sem_up calls that were performed on the semaphore, with success. -/
def ups (s : Int32) (log : List (Fin n × Call × Int32)) : ℕ :=
  log.countP fun e => e.2 = (.semUp s, success)

/-- The sem_down calls that were performed on the semaphore, with success. -/
def downs (s : Int32) (log : List (Fin n × Call × Int32)) : ℕ :=
  log.countP fun e => e.2 = (.semDown s, success)

/-- The tokens of a semaphore, as the log counts them. -/
def tokens (table : Int32 → Int32) (s : Int32) (log : List (Fin n × Call × Int32)) : Option ℤ :=
  (initially table s log).map fun v => v + ups s log - downs s log

section
variable {log : List (Fin n × Call × Int32)} {slots : Slots} {c : Call} {r : Int32}

theorem ups_concat (s : Int32) (log : List (Fin n × Call × Int32)) (e : Fin n × Call × Int32) :
    ups s (log ++ [e]) = ups s log + if e.2 = (.semUp s, success) then 1 else 0 := by
  simp [ups, List.countP_append, List.countP_singleton]

theorem downs_concat (s : Int32) (log : List (Fin n × Call × Int32)) (e : Fin n × Call × Int32) :
    downs s (log ++ [e]) = downs s log + if e.2 = (.semDown s, success) then 1 else 0 := by
  simp [downs, List.countP_append, List.countP_singleton]

/-- Only a sem_open changes what the semaphore was opened with. -/
theorem initially_concat (h : ∀ v, ¬ (c = .semOpen s v ∧ r = success)) :
    initially table s (log ++ [(p, c, r)]) = initially table s log := by
  simp only [initially, List.findSome?_append, List.findSome?_cons, List.findSome?_nil]
  cases c with
  | semOpen s' v =>
    have hne : ¬ (s' = s ∧ r = success) := by
      rintro ⟨rfl, hr⟩
      exact h v ⟨rfl, hr⟩
    simp only [if_neg hne, Option.or_none]
  | _ => simp only [Option.or_none]

/-- The counts are those of the successful calls on the semaphore. -/
theorem counts_concat (table : Int32 → Int32) (log : List (Fin n × Call × Int32)) (p : Fin n)
    (h : c.sem ≠ some s ∨ r = err) :
    initially table s (log ++ [(p, c, r)]) = initially table s log ∧
      ups s (log ++ [(p, c, r)]) = ups s log ∧ downs s (log ++ [(p, c, r)]) = downs s log := by
  have hcount : ∀ c', c'.sem = some s → ¬ (c = c' ∧ r = success) := by
    rintro c' hc' ⟨rfl, rfl⟩
    rcases h with hc | hr
    · exact hc hc'
    · exact absurd hr (by decide)
  refine ⟨initially_concat fun v => hcount (.semOpen s v) rfl, ?_, ?_⟩
  · rw [ups_concat, if_neg (by simpa using hcount (.semUp s) rfl), Nat.add_zero]
  · rw [downs_concat, if_neg (by simpa using hcount (.semDown s) rfl), Nat.add_zero]

/-- **Tokens are counted**, on a semaphore that is not closed. -/
theorem tokens_of_legal (h : Legal Effect (slot ∘ table) log slots)
    (hclose : ∀ e ∈ log, e.2.1 ≠ .semClose s) :
    slots s = tokens table s log ∧ (slots s = none → ups s log = 0 ∧ downs s log = 0) := by
  induction h with
  | nil => simp [tokens, initially, ups, downs]
  | @concat slots slots' log p c r hlegal heffect ih =>
    obtain ⟨hold, hzero⟩ := ih fun e he => hclose e (List.mem_append_left _ he)
    have hsame : c.sem ≠ some s ∨ r = err → slots' s = tokens table s (log ++ [(p, c, r)]) ∧
        (slots' s = none → ups s (log ++ [(p, c, r)]) = 0 ∧ downs s (log ++ [(p, c, r)]) = 0) := by
      intro hc
      obtain ⟨hi, hu, hd⟩ := counts_concat table log p hc
      have hslot : slots' s = slots s := by
        rcases hc with hc | rfl
        · exact heffect.frame hc
        · rw [heffect.of_err]
      simp only [tokens, hi, hu, hd, hslot]
      exact ⟨hold, hzero⟩
    by_cases hc : c.sem = some s
    · cases heffect with
      | reject _ => exact hsame (.inr rfl)
      | openErr _ => exact hsame (.inr rfl)
      | upErr _ => exact hsame (.inr rfl)
      | downErr _ => exact hsame (.inr rfl)
      | kill => cases hc
      | close =>
        cases hc
        exact absurd rfl (hclose _ (List.mem_append_right _ (List.mem_singleton_self _)))
      | @openOk _ v _ _ hnone =>
        cases hc
        obtain ⟨hu, hd⟩ := hzero hnone
        have hi : initially table s log = none := by
          rw [hnone, tokens] at hold
          exact Option.map_eq_none_iff.1 hold.symm
        have hi' : initially table s (log ++ [(p, .semOpen s v, success)]) = some v.toInt := by
          simp only [initially, Option.or_eq_none_iff] at hi
          simp [initially, List.findSome?_append, hi]
        have hu' : ups s (log ++ [(p, .semOpen s v, success)]) = 0 := by
          simpa [ups_concat] using hu
        have hd' : downs s (log ++ [(p, .semOpen s v, success)]) = 0 := by
          simpa [downs_concat] using hd
        simp [tokens, hi', hu', hd']
      | @upOk _ _ k hk =>
        cases hc
        rw [hk, tokens] at hold
        obtain ⟨v, hv, hvk⟩ := Option.map_eq_some_iff.1 hold.symm
        rw [tokens, initially_concat (by simp), hv, ups_concat, downs_concat, if_pos rfl,
          if_neg (by simp), Function.update_self, Option.map_some]
        exact ⟨by rw [← hvk]; push_cast; congr 1; omega, nofun⟩
      | @downOk _ _ k hk _ =>
        cases hc
        rw [hk, tokens] at hold
        obtain ⟨v, hv, hvk⟩ := Option.map_eq_some_iff.1 hold.symm
        rw [tokens, initially_concat (by simp), hv, ups_concat, downs_concat, if_neg (by simp),
          if_pos rfl, Function.update_self, Option.map_some]
        exact ⟨by rw [← hvk]; push_cast; congr 1; omega, nofun⟩
    · exact hsame (.inl hc)

/-- The tokens are never negative. -/
theorem nonneg_of_legal {slots₀ : Slots} (h : Legal Effect slots₀ log slots)
    (h₀ : ∀ k, slots₀ s = some k → 0 ≤ k) : ∀ k, slots s = some k → 0 ≤ k := by
  induction h with
  | nil => exact h₀
  | @concat slots slots' log p c r _ heffect ih =>
    intro k hk
    have hupdate : ∀ {s' x}, (s' = s → ∀ k, x = some k → 0 ≤ k) →
        Function.update slots s' x s = some k → 0 ≤ k := by
      intro s' x hx hup
      by_cases hs : s = s'
      · subst hs; rw [Function.update_self] at hup; exact hx rfl k hup
      · rw [Function.update_of_ne hs] at hup; exact ih k hup
    cases heffect with
    | openOk hv _ =>
      refine hupdate (fun _ k hk => ?_) hk
      cases hk; exact Int32.le_iff_toInt_le.1 hv
    | close => exact hupdate (fun _ k hk => by cases hk) hk
    | @upOk s' _ j hj =>
      refine hupdate (fun hs k' hk' => ?_) hk
      subst hs
      have := ih j hj
      obtain rfl := Option.some.inj hk'
      omega
    | @downOk s' _ j hj hpos =>
      refine hupdate (fun _ k' hk' => ?_) hk
      obtain rfl := Option.some.inj hk'
      omega
    | _ => exact ih k hk

end

/-! ## The refinement -/

/-- A call on a semaphore of the table that does not close it, or a kill. -/
def Call.Plain : Call → Prop
  | .semOpen s _ => InRange s
  | .semClose _ => False
  | .semUp s => InRange s
  | .semDown s => InRange s
  | .kill _ => True

instance : DecidablePred Call.Plain
  | .semOpen s _ => inferInstanceAs (Decidable (InRange s))
  | .semClose _ => inferInstanceAs (Decidable False)
  | .semUp s => inferInstanceAs (Decidable (InRange s))
  | .semDown s => inferInstanceAs (Decidable (InRange s))
  | .kill _ => inferInstanceAs (Decidable True)

/-- The kernel and the array at their start. -/
def Boots (table : Int32 → Int32) (g : G) (σ : KState n G C) (α : AState n G) : Prop :=
  Starts table g σ ∧ α = abstract σ []

theorem slot_nonneg {v : Int32} {k : ℤ} (hv : emptySem ≤ v) (hk : slot v = some k) : 0 ≤ k := by
  have hne : v ≠ emptySem := slot_eq_none.not.1 (by rw [hk]; exact Option.some_ne_none _)
  rw [slot, if_neg hne] at hk
  obtain rfl := Option.some.inj hk
  have hle := Int32.le_iff_toInt_le.1 hv
  have hne' : v.toInt ≠ emptySem.toInt := fun h => hne (Int32.toInt_inj.1 h)
  rw [show emptySem.toInt = -1 from rfl] at hle hne'
  omega

section
variable {log : List (Fin n × Call × Int32)}

omit [DecidableEq C] in
theorem Boots.idle {α : AState n G} (h : Boots table g σ α) :
    (∀ p, α.phase p = .idle) ∧ α.log = [] := by
  obtain ⟨hs, rfl⟩ := h
  exact ⟨fun p => by simp [abstract, hs.pc, Point.phase], rfl⟩

/-- The log is a history of the array that starts with the table. -/
theorem legal_of_linearized (h : Linearizes U (Boots table g) σ (abstract σ log)) :
    Legal Effect (slot ∘ table) log (slot ∘ σ.mem.value) :=
  h.legal fun _ _ hi => by
    obtain ⟨hs, rfl⟩ := hi
    exact ⟨by simp [abstract, hs.value], rfl⟩

/-- When all calls are plain, steps are gentle but for the overflow. -/
theorem gentle_of_plain (hU : ∀ p g c g', U.calls p g c g' → c.Plain)
    (ht : ∀ s, InRange s → emptySem ≤ table s)
    (h : Linearizes U (Boots table g) σ (abstract σ log)) (hk : KInv U σ) (hw : WaitsOpen σ)
    (hno : ∀ s, NoOverflow s σ p) : Gentle σ p := by
  have hplain : ∀ c, (σ.pc p).phase = .invoked c → c.Plain :=
    (h.calls hU fun _ _ => Boots.idle).1 p
  have hpos : ∀ s, InRange s → σ.mem.value s ≠ emptySem → 0 ≤ σ.mem.value s := by
    intro s hs hne
    refine Int32.le_iff_toInt_le.2 ?_
    exact nonneg_of_legal (s := s) (legal_of_linearized h)
      (fun k hk => slot_nonneg (ht s hs) hk) _ (if_neg hne)
  have hasserts := hk.asserts p
  refine ⟨fun s hpc => ⟨hno s hpc, ?_⟩, fun s hpc => ?_, fun s hpc => ?_⟩
  · rw [hpc] at hplain hasserts
    exact hpos s (hplain _ rfl) hasserts
  · have hne := hw p s (by rw [hpc]; rfl)
    rw [hpc] at hplain
    exact hpos s (hplain _ rfl) hne
  · rw [hpc] at hplain
    exact (hplain _ rfl).elim

/-- **The semaphores refine atomic counters.**  Each run of sem_open, sem_up,
    sem_down and kill on a table is a run of the array: each call that returns
    was performed once, at a step with the lock of its semaphore held. -/
theorem atomic_of_reach (hU : ∀ p g c g', U.calls p g c g' → c.Plain)
    (ht : ∀ s, InRange s → emptySem ≤ table s)
    (h : Reach (code U) (Starts table g) (fun σ p => ∀ s, NoOverflow s σ p) σ) :
    ∃ log, Linearizes U (Boots table g) σ (abstract σ log) ∧ ∀ s, InRange s →
      slot (σ.mem.value s) = tokens table s log ∧ ∀ k, tokens table s log = some k → 0 ≤ k := by
  have hinv : KInv U σ ∧ WaitsOpen σ ∧
      ∃ log, Linearizes U (Boots table g) σ (abstract σ log) := by
    refine h.invariant (I := fun σ => KInv U σ ∧ WaitsOpen σ ∧
      ∃ log, Linearizes U (Boots table g) σ (abstract σ log)) (fun σ hi => ?_) ?_
    · exact ⟨hi.kinv, hi.waitsOpen, [], .init ⟨hi, rfl⟩ rfl⟩
    · rintro σ a σ' ⟨hk, hw, log, hlin⟩ hs hok
      have hg : ∀ p, a = some p → Gentle σ p :=
        fun p hp => gentle_of_plain hU ht hlin hk hw (hok p hp)
      exact ⟨hk.step hs, hw.step hk hs hg, abstract_step hlin hk hs hg⟩
  obtain ⟨-, -, log, hlin⟩ := hinv
  have hlegal := legal_of_linearized hlin
  have hplain : ∀ e ∈ log, e.2.1.Plain := (hlin.calls hU fun _ _ => Boots.idle).2
  refine ⟨log, hlin, fun s hs => ?_⟩
  have htokens : slot (σ.mem.value s) = tokens table s log :=
    (tokens_of_legal hlegal fun e he hc => by
      have := hplain e he
      rw [hc] at this; exact this).1
  refine ⟨htokens, fun k hk => ?_⟩
  exact nonneg_of_legal hlegal (fun k hk => slot_nonneg (ht s hs) hk) k (htokens.trans hk)

end

/-- The increment of this point wraps around. -/
def Point.wraps (value : Int32 → Int32) : Point n → Bool
  | .upWrite s => value s == Int32.maxValue
  | _ => false

omit [DecidableEq C] in
theorem noOverflow_of_wraps (h : (!(σ.pc p).wraps σ.mem.value) = true) : ∀ s, NoOverflow s σ p := by
  intro s hpc
  rw [hpc] at h
  simpa [Point.wraps] using h

/-- The first process is back from sleep, with the token of the second one. -/
theorem atomic_downAndUp : ∃ σ : KState 2 (Fin 2 → List Call) (Fin 2),
    σ.pc 0 = .downRelease 511 success ∧
    ∃ log, Linearizes (scripts 2 Call.Plain) (Boots (fun _ => emptySem) downAndUp) σ
      (abstract σ log) ∧ ∀ s, InRange s →
        slot (σ.mem.value s) = tokens (fun _ => emptySem) s log ∧
          ∀ k, tokens (fun _ => emptySem) s log = some k → 0 ≤ k := by
  have hrun : (Scripts.run Call.Plain (fun σ p => !(σ.pc p).wraps σ.mem.value)
      (List.replicate 27 0 ++ List.replicate 16 1 ++ List.replicate 10 0) (fun _ => emptySem)
      downAndUp).map (fun σ => σ.pc 0) = some (.downRelease 511 success) := by decide +kernel
  obtain ⟨σ, hσ, hpc⟩ := Option.map_eq_some_iff.1 hrun
  exact ⟨σ, hpc, atomic_of_reach (fun _ _ _ _ hc => hc.1) (fun _ _ => Int32.le_refl _)
    (Scripts.run_reach (fun _ _ => noOverflow_of_wraps) hσ)⟩

end OSLabs.Kernel
