/-
  Instances of pingpong that run side by side.

  Each instance is at some `Stage`, and owns the semaphores of its stage
  (`Inv`).  No slot is owned twice, so an instance is alone with its semaphores;
  their tokens are then what its two processes have yet to do.
-/
import OSLabs.User.Pingpong
import Mathlib.Algebra.Order.BigOperators.Group.Finset

namespace OSLabs.User

open LockMachine OSLabs.Kernel

variable {n k : ℕ} {par : Fin k → Fin n} {kid : Fin n → Fin n} {N : Fin k → ℕ}
  {table : Int32 → Int32} {π π' : ProgState n} {stage : Fin k → Stage} {st : Stage} {i j : Fin k}
  {s : Int32} {m : ℕ} {p : Fin n}

/-- The lines of two processes. -/
def printed (g : Jobs n) (p t : Fin n) : List (Fin n × String) :=
  g.out.filter fun e => e.1 = p ∨ e.1 = t

/-- The fathers `par` and their children are all different. -/
def Apart (par : Fin k → Fin n) (kid : Fin n → Fin n) : Prop :=
  Function.Injective (Sum.elim par (kid ∘ par))

theorem Apart.par_inj (h : Apart par kid) (hij : par i = par j) : i = j :=
  Sum.inl_injective (@h (.inl i) (.inl j) hij)

theorem Apart.kid_inj (h : Apart par kid) (hij : kid (par i) = kid (par j)) : i = j :=
  Sum.inr_injective (@h (.inr i) (.inr j) hij)

theorem Apart.par_ne_kid (h : Apart par kid) : par i ≠ kid (par j) := fun hij =>
  Sum.inl_ne_inr (@h (.inl i) (.inr j) hij)

theorem apart_one (hne : kid p ≠ p) : Apart (fun _ : Fin 1 => p) kid := by
  rintro (i | i) (j | j) h
  · rw [Subsingleton.elim i j]
  · exact absurd h.symm hne
  · exact absurd h hne
  · rw [Subsingleton.elim i j]

/-- The slots that are closed in a table. -/
def closed (table : Int32 → Int32) : Finset ℕ :=
  (Finset.range 512).filter fun i => table (Int32.ofNat i) = emptySem

/-- **The invariant of the instances**, each of which is at its stage. -/
structure Inv (par : Fin k → Fin n) (kid : Fin n → Fin n) (N : Fin k → ℕ)
    (table : Int32 → Int32) (π : ProgState n) (stage : Fin k → Stage) : Prop where
  father : ∀ j, π.jobs.prog (par j) = some ((stage j).fatherProg (N j))
  child : ∀ j, π.jobs.prog (kid (par j)) = (stage j).childProg
  others : ∀ p x, π.jobs.prog p = some x → ∃ j, p = par j ∨ p = kid (par j)
  own : ∀ j s v, (stage j).own s = some v → π.slots s = some v
  free : ∀ s, (∀ j, (stage j).own s = none) → π.slots s = slot (table s)
  apart : ∀ i j s, i ≠ j → (stage i).own s ≠ none → (stage j).own s = none
  took : ∀ j, ∀ s ∈ (stage j).took, InRange s ∧ table s = emptySem
  scan : ∀ j i, (stage j).scan = some i → i ≤ 512 ∧
    ∀ m < i, table (Int32.ofNat m) = emptySem → ∃ j', Int32.ofNat m ∈ (stage j').took
  ok : ∀ j, (stage j).Ok
  out : ∀ j, printed π.jobs (par j) (kid (par j)) ++
    (stage j).rest (par j) (kid (par j)) (N j) = rounds (par j) (kid (par j)) (N j)

/-! ## The slots -/

theorem ofNat_injOn : Set.InjOn Int32.ofNat {i | i < 512} := by
  intro i hi j hj h
  have := congrArg Int32.toInt h
  rw [toInt_ofNat (le_of_lt hi), toInt_ofNat (le_of_lt hj)] at this
  exact Int.ofNat_inj.1 this

/-- The scan of a father does not get to the end of the table. -/
theorem Inv.scan_lt (h : Inv par kid N table π stage) (hclosed : 2 * k ≤ (closed table).card)
    (hj : (stage j).scan = some m) : m < 512 := by
  obtain ⟨hle, htook⟩ := h.scan j m hj
  refine lt_of_le_of_ne hle ?_
  rintro rfl
  -- the closed slots were all taken, but the instances did not take that many
  have hcard : (closed table).card ≤ ∑ j, (stage j).took.toFinset.card := by
    refine le_trans (Finset.card_le_card_of_injOn Int32.ofNat ?_ ?_) Finset.card_biUnion_le
    · intro i hi
      obtain ⟨hi, hempty⟩ := Finset.mem_filter.1 hi
      obtain ⟨j', hj'⟩ := htook i (Finset.mem_range.1 hi) hempty
      exact Finset.mem_biUnion.2 ⟨j', Finset.mem_univ _, List.mem_toFinset.2 hj'⟩
    · exact ofNat_injOn.mono fun i hi =>
        Finset.mem_range.1 (Finset.mem_filter.1 (Finset.mem_coe.1 hi)).1
  have hsum : ∑ j, (stage j).took.toFinset.card < ∑ _j : Fin k, 2 :=
    Finset.sum_lt_sum
      (fun j' _ => (List.toFinset_card_le _).trans (Stage.took_length _))
      ⟨j, Finset.mem_univ _,
        Nat.lt_succ_of_le ((List.toFinset_card_le _).trans (Stage.took_length_scan hj))⟩
  rw [Finset.sum_const_nat fun _ _ => rfl, Finset.card_univ, Fintype.card_fin] at hsum
  omega

/-- What an instance owns, no other one does. -/
theorem Inv.alone (h : Inv par kid N table π stage) (hj : (stage j).own s ≠ none) :
    ∀ i ≠ j, (stage i).own s = none := fun i hij => h.apart j i s hij.symm hj

theorem Inv.took_own (h : Inv par kid N table π stage) (hj : (stage j).own s ≠ none) :
    InRange s ∧ table s = emptySem := h.took j s (Stage.own_took hj)

/-- A closed slot is not owned, and was closed in the table. -/
theorem Inv.of_closed (h : Inv par kid N table π stage) (hs : π.slots s = none) :
    (∀ i, (stage i).own s = none) ∧ table s = emptySem := by
  have hfree : ∀ i, (stage i).own s = none := by
    intro i
    cases hv : (stage i).own s with
    | none => rfl
    | some v => rw [h.own i s v hv] at hs; cases hs
  exact ⟨hfree, slot_eq_none.1 ((h.free s hfree).symm.trans hs)⟩

/-- How the slots of an instance change when it goes on to the stage `st`. -/
def Slotted (table : Int32 → Int32) (stage : Fin k → Stage) (j : Fin k) (st : Stage)
    (slots slots' : Slots) : Prop :=
  ∀ s, slots' s = slots s ∧ st.own s = (stage j).own s ∨
    slots' s = st.own s ∧ (∀ i ≠ j, (stage i).own s = none) ∧
      (st.own s = none → table s = emptySem)

theorem Slotted.same (hown : st.own = (stage j).own) (slots : Slots) :
    Slotted table stage j st slots slots := fun _ => .inl ⟨rfl, by rw [hown]⟩

theorem Slotted.update {slots : Slots} {x : Int32} {w : Option ℤ}
    (hown : st.own = Function.update (stage j).own x w) (halone : ∀ i ≠ j, (stage i).own x = none)
    (hempty : table x = emptySem) :
    Slotted table stage j st slots (Function.update slots x w) := by
  intro s
  by_cases hs : s = x
  · subst hs
    rw [hown, Function.update_self, Function.update_self]
    exact .inr ⟨rfl, halone, fun _ => hempty⟩
  · rw [hown, Function.update_of_ne hs, Function.update_of_ne hs]
    exact .inl ⟨rfl, rfl⟩

/-! ## One instance goes on -/

/-- **An instance goes on to a stage**, and the others stay where they are. -/
theorem Inv.move (h : Inv par kid N table π stage) (ha : Apart par kid)
    (hfather : π'.jobs.prog (par j) = some (st.fatherProg (N j)))
    (hchild : π'.jobs.prog (kid (par j)) = st.childProg)
    (hother : ∀ p, p ≠ par j → p ≠ kid (par j) → π'.jobs.prog p = π.jobs.prog p)
    (hslots : Slotted table stage j st π.slots π'.slots)
    (htook : ∀ s ∈ (stage j).took, s ∈ st.took)
    (hnew : ∀ s ∈ st.took, s ∈ (stage j).took ∨ InRange s ∧ table s = emptySem)
    (hscan : ∀ i, st.scan = some i → i ≤ 512 ∧
      ∀ m < i, table (Int32.ofNat m) = emptySem → ∃ j', Int32.ofNat m ∈ (stage j').took)
    (hok : st.Ok) {o : List (Fin n × String)} (hout : π'.jobs.out = π.jobs.out ++ o)
    (hlines : ∀ e ∈ o, e.1 = par j ∨ e.1 = kid (par j))
    (hrest : (stage j).rest (par j) (kid (par j)) (N j) =
      o ++ st.rest (par j) (kid (par j)) (N j)) :
    Inv par kid N table π' (Function.update stage j st) := by
  have hmem : ∀ {j' s}, s ∈ (stage j').took → s ∈ (Function.update stage j st j').took := by
    intro j' s hs
    by_cases hj : j' = j
    · subst hj; rw [Function.update_self]; exact htook s hs
    · rwa [Function.update_of_ne hj]
  constructor
  case father =>
    intro j'
    by_cases hj : j' = j
    · subst hj; rw [Function.update_self]; exact hfather
    · rw [Function.update_of_ne hj, hother _ (fun h => hj (ha.par_inj h)) ha.par_ne_kid]
      exact h.father j'
  case child =>
    intro j'
    by_cases hj : j' = j
    · subst hj; rw [Function.update_self]; exact hchild
    · rw [Function.update_of_ne hj, hother _ ha.par_ne_kid.symm fun h => hj (ha.kid_inj h)]
      exact h.child j'
  case others =>
    intro p x hp
    by_cases hpar : p = par j
    · exact ⟨j, .inl hpar⟩
    · by_cases hkid : p = kid (par j)
      · exact ⟨j, .inr hkid⟩
      · exact h.others p x (by rw [← hother p hpar hkid, hp])
  case own =>
    intro j' s v hv
    by_cases hj : j' = j
    · subst hj
      rw [Function.update_self] at hv
      rcases hslots s with ⟨heq, hown⟩ | ⟨heq, -⟩
      · rw [heq]; exact h.own j' s v (by rw [← hown, hv])
      · rw [heq, hv]
    · rw [Function.update_of_ne hj] at hv
      rcases hslots s with ⟨heq, -⟩ | ⟨-, halone, -⟩
      · rw [heq]; exact h.own j' s v hv
      · rw [halone j' hj] at hv; cases hv
  case free =>
    intro s hfree
    have hst : st.own s = none := by have := hfree j; rwa [Function.update_self] at this
    have hold : ∀ i ≠ j, (stage i).own s = none := by
      intro i hi
      have := hfree i; rwa [Function.update_of_ne hi] at this
    rcases hslots s with ⟨heq, hown⟩ | ⟨heq, -, hempty⟩
    · rw [heq]
      refine h.free s fun i => ?_
      by_cases hi : i = j
      · subst hi; rw [← hown, hst]
      · exact hold i hi
    · rw [heq, hst, slot_eq_none.2 (hempty hst)]
  case apart =>
    intro i i' s hne hi
    have hst : ∀ i ≠ j, (stage i).own s ≠ none → st.own s = none := by
      intro i hij hi
      rcases hslots s with ⟨-, hown⟩ | ⟨-, halone, -⟩
      · rw [hown]; exact h.apart i j s hij hi
      · exact absurd (halone i hij) hi
    by_cases hij : i = j
    · subst hij
      rw [Function.update_self] at hi
      rw [Function.update_of_ne hne.symm]
      by_contra hi'
      exact hi (hst i' hne.symm hi')
    · rw [Function.update_of_ne hij] at hi
      by_cases hij' : i' = j
      · subst hij'; rw [Function.update_self]; exact hst i hij hi
      · rw [Function.update_of_ne hij']; exact h.apart i i' s hne hi
  case took =>
    intro j' s hs
    by_cases hj : j' = j
    · subst hj
      rw [Function.update_self] at hs
      exact (hnew s hs).elim (h.took j' s) id
    · rw [Function.update_of_ne hj] at hs; exact h.took j' s hs
  case scan =>
    intro j' i hi
    have hall : i ≤ 512 ∧ ∀ m < i, table (Int32.ofNat m) = emptySem →
        ∃ j', Int32.ofNat m ∈ (stage j').took := by
      by_cases hj : j' = j
      · subst hj; rw [Function.update_self] at hi; exact hscan i hi
      · rw [Function.update_of_ne hj] at hi; exact h.scan j' i hi
    refine ⟨hall.1, fun m hm hempty => ?_⟩
    obtain ⟨j'', hj''⟩ := hall.2 m hm hempty
    exact ⟨j'', hmem hj''⟩
  case ok =>
    intro j'
    by_cases hj : j' = j
    · subst hj; rw [Function.update_self]; exact hok
    · rw [Function.update_of_ne hj]; exact h.ok j'
  case out =>
    intro j'
    have hold := h.out j'
    simp only [printed] at hold ⊢
    rw [hout, List.filter_append]
    by_cases hj : j' = j
    · subst hj
      rw [Function.update_self, List.filter_eq_self.2 fun e he => decide_eq_true (hlines e he),
        List.append_assoc, ← hrest, hold]
    · suffices hnone : o.filter (fun e => decide (e.1 = par j' ∨ e.1 = kid (par j'))) = [] by
        rw [Function.update_of_ne hj, hnone, List.append_nil, hold]
      refine List.filter_eq_nil_iff.2 fun e he => ?_
      have hne : ¬ (e.1 = par j' ∨ e.1 = kid (par j')) := by
        rintro (h₁ | h₁)
        · rcases hlines e he with h₂ | h₂
          · exact hj (ha.par_inj (h₁.symm.trans h₂))
          · exact ha.par_ne_kid (h₁.symm.trans h₂)
        · rcases hlines e he with h₂ | h₂
          · exact ha.par_ne_kid (h₂.symm.trans h₁)
          · exact hj (ha.kid_inj (h₁.symm.trans h₂))
      simpa using hne

section
variable {o : List (Fin n × String)} {f c : Int32} {a : Father} {b : Child}

/-- The father of an instance that has its semaphores goes on. -/
theorem Inv.moveFather (h : Inv par kid N table π stage) (ha : Apart par kid)
    (hprog : π'.jobs.prog =
      Function.update π.jobs.prog (par j) (some (st.fatherProg (N j))))
    (hchild : st.childProg = (stage j).childProg)
    (hslots : Slotted table stage j st π.slots π'.slots) (htook : st.took = (stage j).took)
    (hscan : st.scan = none) (hok : st.Ok) (hout : π'.jobs.out = π.jobs.out ++ o)
    (hlines : ∀ e ∈ o, e.1 = par j)
    (hrest : (stage j).rest (par j) (kid (par j)) (N j) =
      o ++ st.rest (par j) (kid (par j)) (N j)) :
    Inv par kid N table π' (Function.update stage j st) := by
  refine h.move ha ?_ ?_ ?_ hslots (fun s hs => by rwa [htook]) (fun s hs => .inl (by rwa [← htook]))
    (by rw [hscan]; exact nofun) hok hout (fun e he => .inl (hlines e he)) hrest
  · rw [hprog, Function.update_self]
  · rw [hprog, Function.update_of_ne ha.par_ne_kid.symm, h.child j, hchild]
  · intro p hp _
    rw [hprog, Function.update_of_ne hp]

/-- The child of an instance goes on. -/
theorem Inv.moveChild (h : Inv par kid N table π stage) (ha : Apart par kid)
    (hprog : π'.jobs.prog = Function.update π.jobs.prog (kid (par j)) st.childProg)
    (hfather : st.fatherProg (N j) = (stage j).fatherProg (N j))
    (hslots : Slotted table stage j st π.slots π'.slots) (htook : st.took = (stage j).took)
    (hscan : st.scan = none) (hok : st.Ok) (hout : π'.jobs.out = π.jobs.out ++ o)
    (hlines : ∀ e ∈ o, e.1 = kid (par j))
    (hrest : (stage j).rest (par j) (kid (par j)) (N j) =
      o ++ st.rest (par j) (kid (par j)) (N j)) :
    Inv par kid N table π' (Function.update stage j st) := by
  refine h.move ha ?_ ?_ ?_ hslots (fun s hs => by rwa [htook]) (fun s hs => .inl (by rwa [← htook]))
    (by rw [hscan]; exact nofun) hok hout (fun e he => .inr (hlines e he)) hrest
  · rw [hprog, Function.update_of_ne ha.par_ne_kid, h.father j, hfather]
  · rw [hprog, Function.update_self]
  · intro p _ hp
    rw [hprog, Function.update_of_ne hp]

/-- The father tries a slot. -/
theorem Inv.semOpen (h : Inv par kid N table π stage) (ha : Apart par kid)
    (hj : (stage j).scan = some m) (hm : m < 512) {r : Int32} {slots : Slots}
    (heff : Effect (.semOpen (Int32.ofNat m) 0) π.slots r slots) :
    ∃ st, (st = (stage j).failed ∨ st = (stage j).found) ∧ Inv par kid N table
      ⟨slots, π.jobs.setProg (par j) (if r = 0 then (stage j).failed.fatherProg (N j)
        else (stage j).found.fatherProg (N j))⟩ (Function.update stage j st) := by
  obtain ⟨hchild, hfailed, hfound⟩ := Stage.childProg_scan hj
  obtain ⟨hrest, hrestFailed, hrestFound⟩ :=
    Stage.rest_scan (p := par j) (t := kid (par j)) (n := N j) hj
  have hkid : ∀ x, (π.jobs.setProg (par j) x).prog (kid (par j)) = none := by
    intro x
    rw [Jobs.setProg_prog, Function.update_of_ne ha.par_ne_kid.symm, h.child j, hchild]
  have hothers : ∀ x p, p ≠ par j → p ≠ kid (par j) →
      (π.jobs.setProg (par j) x).prog p = π.jobs.prog p := by
    intro x p hp _
    rw [Jobs.setProg_prog, Function.update_of_ne hp]
  rcases heff.semOpen (ofNat_inRange hm) (by decide) with ⟨hopen, rfl, rfl⟩ | ⟨hnone, rfl, rfl⟩
  · -- the slot is open: if it was closed in the table, an instance took it
    refine ⟨_, .inl rfl, ?_⟩
    rw [if_pos (show err = 0 from rfl)]
    refine h.move (o := []) ha (by simp) ((hkid _).trans hfailed.symm) (hothers _)
      (.same (Stage.own_failed _) _) (fun s hs => by rwa [Stage.took_failed])
      (fun s hs => .inl (by rwa [Stage.took_failed] at hs)) ?_ ?_ (by simp) (List.forall_mem_nil _) ?_
    · intro i hi
      rw [Stage.scan_failed hj] at hi
      cases hi
      obtain ⟨-, hold⟩ := h.scan j m hj
      refine ⟨hm, fun m' hm' hempty => ?_⟩
      rcases Nat.lt_succ_iff_lt_or_eq.1 hm' with hlt | rfl
      · exact hold m' hlt hempty
      · by_contra hnot
        refine hopen ((h.free _ fun i => ?_).trans (slot_eq_none.2 hempty))
        by_contra hi
        exact hnot ⟨i, Stage.own_took hi⟩
    · cases hst : stage j with
      | scanFather i => trivial
      | scanChild f i => trivial
      | _ => rw [hst] at hj; cases hj
    · rw [hrest, hrestFailed, List.nil_append]
  · -- the slot is closed, so no instance owns it
    obtain ⟨hfree, hempty⟩ := h.of_closed hnone
    refine ⟨_, .inr rfl, ?_⟩
    rw [if_neg (show success ≠ 0 by decide)]
    refine h.move (o := []) ha (by simp) ((hkid _).trans hfound.symm) (hothers _)
      (.update (Stage.own_found hj) (fun i _ => hfree i) hempty)
      (fun s hs => by rw [Stage.took_found hj]; exact List.mem_append_left _ hs) ?_ ?_
      (Stage.ok_found hj (hfree j)) (by simp) (List.forall_mem_nil _)
      (by rw [hrest, hrestFound, List.nil_append])
    · intro s hs
      rw [Stage.took_found hj, List.mem_append, List.mem_singleton] at hs
      rcases hs with hs | rfl
      · exact .inl hs
      · exact .inr ⟨ofNat_inRange hm, hempty⟩
    · intro i hi
      rw [Stage.scan_found hj i hi]
      exact ⟨Nat.zero_le _, fun m hm => absurd hm (Nat.not_lt_zero m)⟩

/-! ## The moves of an instance -/

/-- Both processes of an instance own its two semaphores. -/
theorem Inv.play (h : Inv par kid N table π stage) (hj : stage j = .play f c a b) :
    π.slots f = some (a.downs - b.ups : ℤ) ∧ π.slots c = some (b.downs - a.ups : ℤ) := by
  have hne : f ≠ c := by have := h.ok j; rw [hj] at this; exact this.1
  refine ⟨h.own j f _ ?_, h.own j c _ ?_⟩
  · rw [hj]; exact twoSems_father hne
  · rw [hj]; exact twoSems_child

/-- A semaphore of an instance is its own, and was closed in the table. -/
theorem Inv.mine (h : Inv par kid N table π stage) {v : ℤ} (hs : (stage j).own s = some v) :
    (∀ i ≠ j, (stage i).own s = none) ∧ table s = emptySem :=
  have hne : (stage j).own s ≠ none := by rw [hs]; exact Option.some_ne_none _
  ⟨h.alone hne, (h.took_own hne).2⟩

variable {r : Int32} {slots : Slots}

theorem Inv.fork (h : Inv par kid N table π stage) (ha : Apart par kid)
    (hj : stage j = .fork f c) : Inv par kid N table
      ⟨π.slots, (π.jobs.setProg (par j) (fatherLoop f c (N j))).setProg (kid (par j))
        (childLoop f c (N j))⟩
      (Function.update stage j (.play f c (.next (N j)) (.next (N j)))) := by
  have hne : f ≠ c := by have := h.ok j; rwa [hj] at this
  refine h.move (o := []) ha ?_ ?_ ?_ (.same ?_ _) ?_ ?_ (by intro i hi; cases hi) ⟨hne, ?_, ?_⟩
    (by simp) (List.forall_mem_nil _) ?_
  · simp [Function.update_of_ne ha.par_ne_kid, Stage.fatherProg]
  · simp [Stage.childProg]
  · intro p hp hk; simp [hp, hk]
  · simp [hj, Stage.own]
  · simp [hj, Stage.took]
  · simp [hj, Stage.took]
  · simp
  · simp
  · simp [hj, Stage.rest]

theorem Inv.ping (h : Inv par kid N table π stage) (ha : Apart par kid)
    (hj : stage j = .play f c (.ping m) b) : Inv par kid N table
      ⟨π.slots, (π.jobs.print (par j) "ping\n").setProg (par j) ((Father.up m).prog f c)⟩
      (Function.update stage j (.play f c (.up m) b)) := by
  have hok := h.ok j
  rw [hj] at hok
  refine h.moveFather ha rfl (by rw [hj]; rfl) (.same (by rw [hj]; rfl) _) (by rw [hj]; rfl) rfl
    hok (o := [(par j, "ping\n")]) rfl (by simp) ?_
  obtain rfl := hok.ping
  simp [hj, Stage.rest, Father.pings, Child.pongs, rounds]

theorem Inv.fatherUp (h : Inv par kid N table π stage) (ha : Apart par kid)
    (hj : stage j = .play f c (.up m) b) (heff : Effect (.semUp c) π.slots r slots) :
    Inv par kid N table ⟨slots, π.jobs.setProg (par j) ((Father.down m).prog f c)⟩
      (Function.update stage j (.play f c (.down m) b)) := by
  obtain ⟨hne, hf, hc⟩ : (Stage.play f c (.up m) b).Ok := hj ▸ h.ok j
  obtain rfl := heff.semUp (h.play hj).2
  have hown : (stage j).own c = some (b.downs - (m + 1 : ℕ) : ℤ) := by
    rw [hj]; exact twoSems_child
  refine h.moveFather ha rfl (by rw [hj]; rfl) (.update ?_ (h.mine hown).1 (h.mine hown).2)
    (by rw [hj]; rfl) rfl ⟨hne, hf, Nat.le_of_succ_le hc⟩ (o := []) (by simp) (List.forall_mem_nil _)
    (by rw [hj]; rfl)
  rw [hj]
  simp only [Stage.own, update_twoSems_child, Father.downs, Father.ups]
  congr 1
  push_cast; omega

theorem Inv.fatherDown (h : Inv par kid N table π stage) (ha : Apart par kid)
    (hj : stage j = .play f c (.down m) b) (heff : Effect (.semDown f) π.slots r slots) :
    Inv par kid N table ⟨slots, π.jobs.setProg (par j) (fatherLoop f c m)⟩
      (Function.update stage j (.play f c (.next m) b)) := by
  obtain ⟨hne, hf, hc⟩ : (Stage.play f c (.down m) b).Ok := hj ▸ h.ok j
  obtain ⟨hpos, rfl⟩ := heff.semDown (h.play hj).1
  have hown : (stage j).own f = some ((m + 1 : ℕ) - b.ups : ℤ) := by
    rw [hj]; exact twoSems_father hne
  simp only [Father.downs] at hpos hf
  refine h.moveFather ha ?_ (by rw [hj]; rfl) (.update ?_ (h.mine hown).1 (h.mine hown).2)
    (by rw [hj]; rfl) rfl ⟨hne, ?_, ?_⟩ (o := []) (by simp) (List.forall_mem_nil _) ?_
  · simp [Stage.fatherProg]
  · rw [hj]
    simp only [Stage.own, update_twoSems_father hne, Father.next_downs, Father.next_ups]
    simp only [Father.downs, Father.ups]
    congr 1
    push_cast; omega
  · rw [Father.next_downs]; omega
  · rwa [Father.next_ups]
  · simp only [hj, Stage.rest, Father.next_pings, List.nil_append]; rfl

theorem Inv.childDown (h : Inv par kid N table π stage) (ha : Apart par kid)
    (hj : stage j = .play f c a (.down m)) (heff : Effect (.semDown c) π.slots r slots) :
    Inv par kid N table ⟨slots, π.jobs.setProg (kid (par j)) ((Child.pong m).prog f c)⟩
      (Function.update stage j (.play f c a (.pong m))) := by
  obtain ⟨hne, hf, hc⟩ : (Stage.play f c a (.down m)).Ok := hj ▸ h.ok j
  obtain ⟨hpos, rfl⟩ := heff.semDown (h.play hj).2
  have hown : (stage j).own c = some ((m + 1 : ℕ) - a.ups : ℤ) := by
    rw [hj]; exact twoSems_child
  simp only [Child.downs] at hpos hc
  refine h.moveChild ha rfl (by rw [hj]; rfl) (.update ?_ (h.mine hown).1 (h.mine hown).2)
    (by rw [hj]; rfl) rfl ⟨hne, hf, ?_⟩ (o := []) (by simp) (List.forall_mem_nil _) (by rw [hj]; rfl)
  · rw [hj]
    simp only [Stage.own, update_twoSems_child, Child.downs, Child.ups]
    congr 1
    push_cast; omega
  · simp only [Child.downs]; omega

theorem Inv.pong (h : Inv par kid N table π stage) (ha : Apart par kid)
    (hj : stage j = .play f c a (.pong m)) : Inv par kid N table
      ⟨π.slots, (π.jobs.print (kid (par j)) "\tpong\n").setProg (kid (par j))
        ((Child.up m).prog f c)⟩
      (Function.update stage j (.play f c a (.up m))) := by
  have hok := h.ok j
  rw [hj] at hok
  refine h.moveChild ha rfl (by rw [hj]; rfl) (.same (by rw [hj]; rfl) _) (by rw [hj]; rfl) rfl
    hok (o := [(kid (par j), "\tpong\n")]) rfl (by simp) ?_
  obtain rfl := hok.pong
  simp [hj, Stage.rest, Father.pings, Child.pongs]

theorem Inv.childUp (h : Inv par kid N table π stage) (ha : Apart par kid)
    (hj : stage j = .play f c a (.up m)) (heff : Effect (.semUp f) π.slots r slots) :
    Inv par kid N table ⟨slots, π.jobs.setProg (kid (par j)) (childLoop f c m)⟩
      (Function.update stage j (.play f c a (.next m))) := by
  obtain ⟨hne, hf, hc⟩ : (Stage.play f c a (.up m)).Ok := hj ▸ h.ok j
  obtain rfl := heff.semUp (h.play hj).1
  have hown : (stage j).own f = some (a.downs - (m + 1 : ℕ) : ℤ) := by
    rw [hj]; exact twoSems_father hne
  refine h.moveChild ha ?_ (by rw [hj]; rfl) (.update ?_ (h.mine hown).1 (h.mine hown).2)
    (by rw [hj]; rfl) rfl ⟨hne, ?_, ?_⟩ (o := []) (by simp) (List.forall_mem_nil _) ?_
  · simp [Stage.childProg]
  · rw [hj]
    simp only [Stage.own, update_twoSems_father hne, Child.next_downs, Child.next_ups]
    simp only [Child.downs, Child.ups]
    congr 1
    push_cast; omega
  · rw [Child.next_ups]; exact Nat.le_of_succ_le hf
  · rwa [Child.next_downs]
  · simp only [hj, Stage.rest, Child.next_pongs, List.nil_append]; rfl

theorem Inv.wait (h : Inv par kid N table π stage) (ha : Apart par kid)
    (hj : stage j = .play f c .wait b) : Inv par kid N table
      ⟨π.slots, π.jobs.setProg (par j) ((Stage.closeChild f c).fatherProg (N j))⟩
      (Function.update stage j (.closeChild f c)) := by
  have hok := h.ok j
  rw [hj] at hok
  obtain rfl := hok.wait
  refine h.moveFather ha rfl (by rw [hj]; rfl) (.same ?_ _) (by rw [hj]; rfl) rfl hok.1
    (o := []) (by simp) (List.forall_mem_nil _) ?_
  · rw [hj]; simp [Stage.own, Father.downs, Father.ups, Child.downs, Child.ups]
  · rw [hj]; simp [Stage.rest, Father.pings, Child.pongs, rounds]

theorem Inv.closeChild (h : Inv par kid N table π stage) (ha : Apart par kid)
    (hj : stage j = .closeChild f c) (heff : Effect (.semClose c) π.slots r slots) :
    Inv par kid N table
      ⟨slots, π.jobs.setProg (par j) ((Stage.closeFather f c).fatherProg (N j))⟩
      (Function.update stage j (.closeFather f c)) := by
  have hok : f ≠ c := by have := h.ok j; rwa [hj] at this
  have hown : (stage j).own c = some 0 := by rw [hj]; exact twoSems_child
  obtain rfl := heff.semClose (h.took j c (Stage.own_took (by rw [hown]; exact Option.some_ne_none _))).1
  refine h.moveFather ha rfl (by rw [hj]; rfl) (.update ?_ (h.mine hown).1 (h.mine hown).2)
    (by rw [hj]; rfl) rfl trivial (o := []) (by simp) (List.forall_mem_nil _) (by rw [hj]; rfl)
  rw [hj]
  funext s
  simp only [Stage.own, twoSems, Function.update_apply]
  split_ifs <;> simp_all

theorem Inv.closeFather (h : Inv par kid N table π stage) (ha : Apart par kid)
    (hj : stage j = .closeFather f c) (heff : Effect (.semClose f) π.slots r slots) :
    Inv par kid N table ⟨slots, π.jobs.setProg (par j) .exit⟩
      (Function.update stage j (.done f c)) := by
  have hown : (stage j).own f = some 0 := by rw [hj]; simp [Stage.own]
  obtain rfl := heff.semClose (h.took j f (Stage.own_took (by rw [hown]; exact Option.some_ne_none _))).1
  refine h.moveFather ha rfl (by rw [hj]; rfl) (.update ?_ (h.mine hown).1 (h.mine hown).2)
    (by rw [hj]; rfl) rfl trivial (o := []) (by simp) (List.forall_mem_nil _) (by rw [hj]; rfl)
  rw [hj]
  simp only [Stage.own, Function.update_idem]
  exact (Function.update_eq_self f fun _ => none).symm

/-! ## A step of the programs -/

/-- The processes of the instances, with what is left of their programs. -/
inductive Turn (par : Fin k → Fin n) (kid : Fin n → Fin n) (N : Fin k → ℕ)
    (stage : Fin k → Stage) : Fin n → Prog → Prop
  | semOpen {j : Fin k} {m : ℕ} : (stage j).scan = some m → m < 512 →
      Turn par kid N stage (par j) (.call (.semOpen (Int32.ofNat m) 0) fun r =>
        if r = 0 then (stage j).failed.fatherProg (N j) else (stage j).found.fatherProg (N j))
  | fork {j : Fin k} {f c : Int32} : stage j = .fork f c →
      Turn par kid N stage (par j) (.fork fun childId =>
        if childId = -1 then .print "ERROR: fork failed.\n" .exit
        else if childId = 0 then childLoop f c (N j)
        else fatherLoop f c (N j))
  | ping {j : Fin k} {f c : Int32} {m : ℕ} {b : Child} : stage j = .play f c (.ping m) b →
      Turn par kid N stage (par j) (.print "ping\n" ((Father.up m).prog f c))
  | fatherUp {j : Fin k} {f c : Int32} {m : ℕ} {b : Child} : stage j = .play f c (.up m) b →
      Turn par kid N stage (par j) (.call (.semUp c) fun _ => (Father.down m).prog f c)
  | fatherDown {j : Fin k} {f c : Int32} {m : ℕ} {b : Child} : stage j = .play f c (.down m) b →
      Turn par kid N stage (par j) (.call (.semDown f) fun _ => fatherLoop f c m)
  | wait {j : Fin k} {f c : Int32} {b : Child} : stage j = .play f c .wait b →
      Turn par kid N stage (par j) (.wait ((Stage.closeChild f c).fatherProg (N j)))
  | closeChild {j : Fin k} {f c : Int32} : stage j = .closeChild f c →
      Turn par kid N stage (par j)
        (.call (.semClose c) fun _ => (Stage.closeFather f c).fatherProg (N j))
  | closeFather {j : Fin k} {f c : Int32} : stage j = .closeFather f c →
      Turn par kid N stage (par j) (.call (.semClose f) fun _ => .exit)
  | childDown {j : Fin k} {f c : Int32} {a : Father} {m : ℕ} : stage j = .play f c a (.down m) →
      Turn par kid N stage (kid (par j)) (.call (.semDown c) fun _ => (Child.pong m).prog f c)
  | pong {j : Fin k} {f c : Int32} {a : Father} {m : ℕ} : stage j = .play f c a (.pong m) →
      Turn par kid N stage (kid (par j)) (.print "\tpong\n" ((Child.up m).prog f c))
  | childUp {j : Fin k} {f c : Int32} {a : Father} {m : ℕ} : stage j = .play f c a (.up m) →
      Turn par kid N stage (kid (par j)) (.call (.semUp f) fun _ => childLoop f c m)
  | exit {p : Fin n} : Turn par kid N stage p .exit

/-- **What the processes are about to do.** -/
theorem Inv.turn (h : Inv par kid N table π stage)
    (hlt : ∀ {j m}, (stage j).scan = some m → m < 512) {x : Prog} (hp : π.jobs.prog p = some x) :
    Turn par kid N stage p x := by
  obtain ⟨j, rfl | rfl⟩ := h.others p _ hp
  · have hf := Option.some.inj ((h.father j).symm.trans hp)
    subst hf
    have hscan : ∀ {m}, (stage j).scan = some m →
        Turn par kid N stage (par j) ((stage j).fatherProg (N j)) := by
      intro m hm
      rw [Stage.fatherProg_scan hm (hlt hm)]
      exact .semOpen hm (hlt hm)
    cases hst : stage j with
    | scanFather m => rw [← hst]; exact hscan (by rw [hst]; rfl)
    | scanChild f m => rw [← hst]; exact hscan (by rw [hst]; rfl)
    | fork f c =>
      have hc : InRange c := (h.took j c (by rw [hst]; exact .tail _ (.head _))).1
      rw [Stage.fatherProg, haveChildSem_inRange hc]
      exact .fork hst
    | play f c a b =>
      cases a with
      | ping m => exact .ping hst
      | up m => exact .fatherUp hst
      | down m => exact .fatherDown hst
      | wait => exact .wait hst
    | closeChild f c => exact .closeChild hst
    | closeFather f c => exact .closeFather hst
    | done f c => exact .exit
  · have hc := (h.child j).symm.trans hp
    cases hst : stage j with
    | play f c a b =>
      rw [hst] at hc
      cases hc
      cases b with
      | down m => exact .childDown hst
      | pong m => exact .pong hst
      | up m => exact .childUp hst
      | exit => exact .exit
    | closeChild f c => rw [hst] at hc; cases hc; exact .exit
    | closeFather f c => rw [hst] at hc; cases hc; exact .exit
    | done f c => rw [hst] at hc; cases hc; exact .exit
    | _ => rw [hst] at hc; cases hc

theorem Inv.step (h : Inv par kid N table π stage) (ha : Apart par kid)
    (hlt : ∀ {j m}, (stage j).scan = some m → m < 512) (hs : ProgStep kid false π π') :
    ∃ j st, (stage j).Onward st ∧ Inv par kid N table π' (Function.update stage j st) := by
  cases hs with
  | call hp heff =>
    cases h.turn hlt hp with
    | semOpen hj hm =>
      obtain ⟨st, hst, hi⟩ := h.semOpen ha hj hm heff
      exact ⟨_, st, .of_scan_some hj hst, hi⟩
    | fatherUp hj => exact ⟨_, _, .of_scan_none (by rw [hj]; rfl) rfl, h.fatherUp ha hj heff⟩
    | fatherDown hj => exact ⟨_, _, .of_scan_none (by rw [hj]; rfl) rfl, h.fatherDown ha hj heff⟩
    | closeChild hj => exact ⟨_, _, .of_scan_none (by rw [hj]; rfl) rfl, h.closeChild ha hj heff⟩
    | closeFather hj => exact ⟨_, _, .of_scan_none (by rw [hj]; rfl) rfl, h.closeFather ha hj heff⟩
    | childDown hj => exact ⟨_, _, .of_scan_none (by rw [hj]; rfl) rfl, h.childDown ha hj heff⟩
    | childUp hj => exact ⟨_, _, .of_scan_none (by rw [hj]; rfl) rfl, h.childUp ha hj heff⟩
  | act hact =>
    cases hact with
    | print hp =>
      cases h.turn hlt hp with
      | ping hj => exact ⟨_, _, .of_scan_none (by rw [hj]; rfl) rfl, h.ping ha hj⟩
      | pong hj => exact ⟨_, _, .of_scan_none (by rw [hj]; rfl) rfl, h.pong ha hj⟩
    | @fork y pid hp _ hpid =>
      cases h.turn hlt hp with
      | fork hj =>
        have hfailed : pid ≠ -1 := by rintro rfl; exact absurd hpid (by decide)
        have hchild : pid ≠ 0 := by rintro rfl; exact absurd hpid (by decide)
        simp only [hfailed, hchild, if_false, if_true, show (0 : Int32) ≠ -1 by decide]
        exact ⟨_, _, .of_scan_none (by rw [hj]; rfl) rfl, h.fork ha hj⟩
    | forkFails hfails _ => cases hfails
    | wait hp _ =>
      cases h.turn hlt hp with
      | wait hj => exact ⟨_, _, .of_scan_none (by rw [hj]; rfl) rfl, h.wait ha hj⟩

/-- **The programs are calm.** -/
theorem Inv.calm (h : Inv par kid N table π stage)
    (hlt : ∀ {j m}, (stage j).scan = some m → m < 512) : Calm π := by
  refine ⟨fun p s y hp v hv => ?_, fun p s y hp v hv => ?_, fun p t s y y' hp ht => ?_,
    fun p pid y hp => ?_⟩
  · cases h.turn hlt hp with
    | @fatherUp j f c m b hj =>
      obtain rfl := (hj ▸ h.ok j : (Stage.play f s (.up m) b).Ok).up
      rw [(h.play hj).2] at hv
      cases hv
      simp only [Child.downs, Father.ups, sub_self]
      decide
    | @childUp j f c a m hj =>
      obtain rfl := (hj ▸ h.ok j : (Stage.play s c a (.up m)).Ok).childUp
      rw [(h.play hj).1] at hv
      cases hv
      simp only [Father.downs, Child.ups, sub_self]
      decide
  · cases h.turn hlt hp with
    | @fatherDown j f c m b hj =>
      obtain ⟨-, hle, -⟩ : (Stage.play s c (.down m) b).Ok := hj ▸ h.ok j
      rw [(h.play hj).1] at hv
      cases hv
      exact sub_nonneg.2 (Int.ofNat_le.2 hle)
    | @childDown j f c a m hj =>
      obtain ⟨-, -, hle⟩ : (Stage.play f s a (.down m)).Ok := hj ▸ h.ok j
      rw [(h.play hj).2] at hv
      cases hv
      exact sub_nonneg.2 (Int.ofNat_le.2 hle)
  · -- the instance that closes its semaphore is not in its rounds any more
    have hclose : ∃ i v, (stage i).own s = some v ∧ ∀ f c a b, stage i ≠ .play f c a b := by
      cases h.turn hlt hp with
      | @closeChild i f c hi =>
        exact ⟨i, 0, by rw [hi]; exact twoSems_child, fun f c a b hplay => by
          rw [hi] at hplay; cases hplay⟩
      | @closeFather i f c hi =>
        exact ⟨i, 0, by rw [hi]; simp [Stage.own], fun f c a b hplay => by
          rw [hi] at hplay; cases hplay⟩
    have hdown : ∃ i f c a b, stage i = .play f c a b ∧ (stage i).own s ≠ none := by
      cases h.turn hlt ht with
      | @fatherDown i f c m b hi =>
        have hne : s ≠ c := (hi ▸ h.ok i : (Stage.play s c (.down m) b).Ok).1
        refine ⟨i, s, c, .down m, b, hi, ?_⟩
        rw [hi, Stage.own, twoSems_father hne]; exact Option.some_ne_none _
      | @childDown i f c a m hi =>
        refine ⟨i, f, s, a, .down m, hi, ?_⟩
        rw [hi, Stage.own, twoSems_child]; exact Option.some_ne_none _
    obtain ⟨i, v, hv, hnot⟩ := hclose
    obtain ⟨i', f, c, a, b, hi', hne⟩ := hdown
    by_cases hii : i' = i
    · subst hii; exact hnot f c a b hi'
    · exact hne ((h.mine hv).1 i' hii)
  · cases h.turn hlt hp

/-! ## Who is stuck -/

def Unfinished (g : Jobs n) (p : Fin n) : Prop := ∃ x, g.prog p = some x ∧ x ≠ .exit

/-- A process that cannot go on by itself. -/
def Stuck (kid : Fin n → Fin n) (π : ProgState n) (p : Fin n) : Prop :=
  (∃ s y, π.jobs.prog p = some (.call (.semDown s) y) ∧ π.slots s = some 0) ∨
    ∃ x, π.jobs.prog p = some (.wait x) ∧ π.jobs.prog (kid p) ≠ some .exit

/-- The next step of the program waits for nobody. -/
def Prog.goes : Prog → Bool
  | .call (.semDown _) _ | .wait _ | .exit => false
  | _ => true

/-- **An instance is never stuck as a whole.** -/
theorem Inv.not_stuck (h : Inv par kid N table π stage)
    (hlt : ∀ {j m}, (stage j).scan = some m → m < 512) (hp : Unfinished π.jobs p) :
    ∃ t, Unfinished π.jobs t ∧ ¬ Stuck kid π t := by
  obtain ⟨x, hp, hx⟩ := hp
  have hgo : ∀ {t x}, π.jobs.prog t = some x → x.goes = true →
      ∃ t, Unfinished π.jobs t ∧ ¬ Stuck kid π t := by
    intro t x ht hgoes
    refine ⟨t, ⟨x, ht, ?_⟩, ?_⟩
    · rintro rfl; cases hgoes
    · rintro (⟨s, y, hy, -⟩ | ⟨y, hy, -⟩)
      · obtain rfl := Option.some.inj (ht.symm.trans hy); cases hgoes
      · obtain rfl := Option.some.inj (ht.symm.trans hy); cases hgoes
  have hdown : ∀ {t s y v}, π.jobs.prog t = some (.call (.semDown s) y) → π.slots s = some v →
      v ≠ 0 → ∃ t, Unfinished π.jobs t ∧ ¬ Stuck kid π t := by
    intro t s y v ht hv hne
    refine ⟨t, ⟨_, ht, by simp⟩, ?_⟩
    rintro (⟨s', y', hy, hzero⟩ | ⟨y', hy, -⟩)
    · rw [ht] at hy
      cases hy
      rw [hv] at hzero
      exact hne (Option.some.inj hzero)
    · rw [ht] at hy; cases hy
  cases h.turn hlt hp with
  | exit => exact absurd rfl hx
  | @fatherDown j f c m b hj =>
    -- if the father waits for a pong, the child is about to print it, or may go on
    have hkid := h.child j
    obtain ⟨hne, hle, hle'⟩ : (Stage.play f c (.down m) b).Ok := hj ▸ h.ok j
    rw [hj] at hkid
    cases b with
    | pong m' => exact hgo hkid rfl
    | up m' => exact hgo hkid rfl
    | exit =>
      refine hdown hp (h.play hj).1 ?_
      simp only [Father.downs, Child.ups]; omega
    | down m' =>
      by_cases hv : ((Father.down m).downs : ℤ) - (Child.down m').ups = 0
      · refine hdown hkid (h.play hj).2 ?_
        simp only [Father.downs, Father.ups, Child.downs, Child.ups] at hv ⊢
        omega
      · exact hdown hp (h.play hj).1 hv
  | @childDown j f c a m hj =>
    have hfather := h.father j
    obtain ⟨hne, hle, hle'⟩ : (Stage.play f c a (.down m)).Ok := hj ▸ h.ok j
    rw [hj] at hfather
    cases a with
    | ping m' => exact hgo hfather rfl
    | up m' => exact hgo hfather rfl
    | wait =>
      simp only [Father.downs, Child.ups] at hle
      omega
    | down m' =>
      by_cases hv : ((Child.down m).downs : ℤ) - (Father.down m').ups = 0
      · refine hdown hfather (h.play hj).1 ?_
        simp only [Father.downs, Father.ups, Child.downs, Child.ups] at hv ⊢
        omega
      · exact hdown hp (h.play hj).2 hv
  | @wait j f c b hj =>
    have hok := h.ok j
    have hkid := h.child j
    rw [hj] at hok hkid
    obtain rfl := hok.wait
    refine ⟨par j, ⟨_, hp, hx⟩, ?_⟩
    rintro (⟨s, y, hy, -⟩ | ⟨y, -, hnot⟩)
    · rw [hp] at hy; cases hy
    · exact hnot hkid
  | _ => exact hgo hp rfl

end

/-! ## On the kernel -/

section
variable {C : Type} [DecidableEq C] {σ : KState n (Jobs n) C} {g : Jobs n} {M : Fin k → Int32}

/-- The fathers are about to run `pingpong M_j`, and nothing else runs. -/
structure Launched (par : Fin k → Fin n) (M : Fin k → Int32) (g : Jobs n) : Prop where
  father : ∀ j, g.prog (par j) = some (main 2 (M j))
  others : ∀ p, (∀ j, p ≠ par j) → g.prog p = none
  out : g.out = []

theorem main_two {x : Int32} (hx : 0 < x) :
    main 2 x = (Stage.scanFather 0).fatherProg x.toNatClampNeg :=
  (if_neg (not_not.2 rfl)).trans (if_neg (Int32.not_le.2 hx))

theorem Launched.inv (h : Launched par M g) (ha : Apart par kid) (hM : ∀ j, 0 < M j) :
    Inv par kid (fun j => (M j).toNatClampNeg) table ⟨slot ∘ table, g⟩ fun _ => .scanFather 0 where
  father j := (h.father j).trans (by rw [main_two (hM j)])
  child j := h.others _ fun i hij => ha.par_ne_kid hij.symm
  others p x hp := by
    by_contra hnot
    rw [not_exists] at hnot
    rw [h.others p fun j hj => hnot j (.inl hj)] at hp
    cases hp
  own j s v hv := by cases hv
  free s _ := rfl
  apart i j s _ hi := absurd rfl hi
  took j s hs := by cases hs
  scan j i hi := by cases hi; exact ⟨Nat.zero_le _, fun m hm => absurd hm (Nat.not_lt_zero m)⟩
  ok j := trivial
  out j := by simp [printed, h.out, Stage.rest]

/-- A father that has finished is at the end of its instance. -/
theorem Inv.done (h : Inv par kid N table π stage)
    (hlt : ∀ {j m}, (stage j).scan = some m → m < 512) (hp : π.jobs.prog (par j) = some .exit) :
    ∃ f c, stage j = .done f c := by
  have hf := (h.father j).symm.trans hp
  cases hst : stage j with
  | scanFather m =>
    have hscan : (stage j).scan = some m := by rw [hst]; rfl
    rw [Stage.fatherProg_scan hscan (hlt hscan)] at hf; cases hf
  | scanChild f m =>
    have hscan : (stage j).scan = some m := by rw [hst]; rfl
    rw [Stage.fatherProg_scan hscan (hlt hscan)] at hf; cases hf
  | fork f c =>
    have hc : InRange c := (h.took j c (by rw [hst]; exact .tail _ (.head _))).1
    rw [hst, Stage.fatherProg, haveChildSem_inRange hc] at hf; cases hf
  | play f c a b => rw [hst] at hf; cases a <;> cases hf
  | closeChild f c => rw [hst] at hf; cases hf
  | closeFather f c => rw [hst] at hf; cases hf
  | done f c => exact ⟨f, c, rfl⟩

omit [DecidableEq C] in
/-- Instances that are done leave the table as it was. -/
theorem Inv.restored (h : Inv par kid N table (view σ) stage)
    (hdone : ∀ j, ∃ f c, stage j = .done f c) : σ.mem.value = table := by
  funext s
  refine slot_injective (h.free s fun j => ?_)
  obtain ⟨f, c, hj⟩ := hdone j
  rw [hj]; rfl

omit [DecidableEq C] in
/-- A process that runs a program, and has finished, has exited. -/
theorem exited_of_finished {x : Prog} (hview : (view σ).jobs.prog p = some x)
    (hp : ¬ Unfinished σ.mem.user p) : σ.mem.user.prog p = some .exit := by
  cases hprog : σ.mem.user.prog p with
  | none =>
    simp only [view, hprog, effective_none] at hview
    cases hview
  | some y => exact congrArg some (not_not.1 fun hy => hp ⟨y, hprog, hy⟩)

/-- A process that sleeps, or is in wait while its child has not exited. -/
def Blocked (kid : Fin n → Fin n) (σ : KState n (Jobs n) C) (p : Fin n) : Prop :=
  σ.mem.state p = .sleeping ∨
    ∃ x, σ.mem.user.prog p = some (.wait x) ∧ σ.mem.user.prog (kid p) ≠ some .exit

omit [DecidableEq C] in
/-- A process that returns from a call is not blocked. -/
theorem Running.not_blocked {r : Int32} (h : Running kid false σ)
    (hp : (σ.pc p).phase = .responded r) : ¬ Blocked kid σ p := by
  obtain ⟨c, y, hy⟩ := (h.calls p).responded r hp
  rintro (hst | ⟨x, hx, -⟩)
  · obtain ⟨s, hpc | hpc⟩ := h.kernel.sleeping p hst <;> rw [hpc] at hp <;> cases hp
  · rw [hy] at hx; cases hx

omit [DecidableEq C] in
/-- If no process returns from a call, those that are blocked are stuck. -/
theorem Running.stuck (h : Running kid false σ) (hjobs : (view σ).jobs = σ.mem.user)
    (hp : Blocked kid σ p) : Stuck kid (view σ) p := by
  rcases hp with hst | ⟨x, hx, hkid⟩
  · obtain ⟨s, hpc⟩ := h.kernel.sleeping p hst
    have hchan : σ.mem.chan p = some s :=
      h.kernel.chan p s (by rcases hpc with hpc | hpc <;> rw [hpc] <;> rfl)
    have hphase : (σ.pc p).phase = .invoked (.semDown s) := by
      rcases hpc with hpc | hpc <;> rw [hpc] <;> rfl
    obtain ⟨y, hy⟩ := (h.calls p).invoked _ hphase
    refine .inl ⟨s, y, by rw [hjobs, hy], ?_⟩
    show slot (σ.mem.value s) = some 0
    rw [(h.wake s).sleeping h.kernel hst hchan]; rfl
  · exact .inr ⟨x, by rw [hjobs, hx], by rwa [hjobs]⟩

/-- **pingpong.**  Instances that run side by side, on a table with two closed
    slots for each, print their rounds in order, do not block all together
    before they have finished, and leave the table as it was. -/
theorem pingpong_of_reach (ha : Apart par kid) (hM : ∀ j, 0 < M j)
    (hclosed : 2 * k ≤ (closed table).card) (hg : Launched par M g)
    (h : Reach (code (processes kid false)) (Starts table g) (fun _ _ => True) σ) :
    (∀ j, printed σ.mem.user (par j) (kid (par j)) <+:
      rounds (par j) (kid (par j)) (M j).toNatClampNeg) ∧
    (∀ j, σ.mem.user.prog (par j) = some .exit → printed σ.mem.user (par j) (kid (par j)) =
      rounds (par j) (kid (par j)) (M j).toNatClampNeg) ∧
    ((∃ p, Unfinished σ.mem.user p) → ∃ p, Unfinished σ.mem.user p ∧ ¬ Blocked kid σ p) ∧
    ((∀ p, ¬ Unfinished σ.mem.user p) → σ.mem.value = table) := by
  have hinv : ∀ π, ProgReach kid false ⟨slot ∘ table, g⟩ π →
      ∃ stage, Inv par kid (fun j => (M j).toNatClampNeg) table π stage := by
    intro π hπ
    refine hπ.invariant (I := fun π => ∃ stage,
      Inv par kid (fun j => (M j).toNatClampNeg) table π stage) ⟨_, hg.inv ha hM⟩ ?_
    rintro π π' ⟨stage, hi⟩ hs
    obtain ⟨j, st, -, hi'⟩ := hi.step ha (hi.scan_lt hclosed) hs
    exact ⟨_, hi'⟩
  have hcalm : ∀ π, ProgReach kid false ⟨slot ∘ table, g⟩ π → Calm π := by
    intro π hπ
    obtain ⟨stage, hi⟩ := hinv π hπ
    exact hi.calm (hi.scan_lt hclosed)
  obtain ⟨hrun, hreach⟩ := running_of_reach hcalm h
  obtain ⟨stage, hi⟩ := hinv _ hreach
  have hlt : ∀ {j m}, (stage j).scan = some m → m < 512 := hi.scan_lt hclosed
  have hexit : ∀ {p}, σ.mem.user.prog p = some .exit → (view σ).jobs.prog p = some .exit :=
    fun hp => by simp only [view, hp, effective_exit]
  refine ⟨fun j => ⟨_, hi.out j⟩, fun j hj => ?_, fun hsome => ?_, fun hall => ?_⟩
  · obtain ⟨f, c, hdone⟩ := hi.done hlt (hexit hj)
    have hout := hi.out j
    rw [hdone] at hout
    simp only [Stage.rest, List.append_nil] at hout
    exact hout
  · obtain ⟨p, hp⟩ := hsome
    by_cases hret : ∃ t r, (σ.pc t).phase = .responded r
    · obtain ⟨t, r, ht⟩ := hret
      obtain ⟨c, y, hy⟩ := (hrun.calls t).responded r ht
      exact ⟨t, ⟨_, hy, by simp⟩, hrun.not_blocked ht⟩
    · have hjobs : (view σ).jobs = σ.mem.user := by
        have hsame : ∀ t, effective (σ.pc t).phase (σ.mem.user.prog t) = σ.mem.user.prog t := by
          intro t
          cases hphase : (σ.pc t).phase with
          | idle => exact effective_idle _
          | invoked c => exact effective_invoked ..
          | responded r => exact absurd ⟨t, r, hphase⟩ hret
          | exited => exact absurd hphase (hrun.alive t).1
        simp only [view, hsame]
      obtain ⟨t, ht, hstuck⟩ := hi.not_stuck hlt (p := p) (by rwa [hjobs])
      rw [hjobs] at ht
      exact ⟨t, ht, fun hb => hstuck (hrun.stuck hjobs hb)⟩
  · exact hi.restored fun j => hi.done hlt (hexit (exited_of_finished (hi.father j) (hall _)))

/-- One instance that plays one round. -/
def oneRound : Jobs 2 where
  prog
    | 0 => some (main 2 1)
    | 1 => none
  out := []

theorem oneRound_launched : Launched (fun _ : Fin 1 => (0 : Fin 2)) (fun _ => 1) oneRound where
  father _ := rfl
  others
    | 0, hp => absurd rfl (hp 0)
    | 1, _ => rfl
  out := rfl

/-- The father runs until it waits for the child, then the child, then the father. -/
theorem oneRound_runs : ∃ σ : KState 2 (Jobs 2) (Fin 2),
    Reach (code (processes (fun _ => 1) false)) (Starts (makeSemArray fun _ => 0) oneRound)
      (fun _ _ => True) σ ∧ ∀ p, σ.mem.user.prog p = some .exit := by
  have hrun : (run (fun _ => 1) (List.replicate 3 1 ++ List.replicate 68 0 ++
      List.replicate 31 1 ++ List.replicate 38 0) (makeSemArray fun _ => 0) oneRound).map
        (fun σ => ((σ.mem.user.prog 0).map Prog.isExit, (σ.mem.user.prog 1).map Prog.isExit)) =
      some (some true, some true) := by decide +kernel
  obtain ⟨σ, hσ, hσ'⟩ := Option.map_eq_some_iff.1 hrun
  simp only [Prod.mk.injEq] at hσ'
  obtain ⟨x, hx, hxe⟩ := Option.map_eq_some_iff.1 hσ'.1
  obtain ⟨y, hy, hye⟩ := Option.map_eq_some_iff.1 hσ'.2
  obtain rfl := Prog.eq_exit hxe
  obtain rfl := Prog.eq_exit hye
  exact ⟨σ, run_reach hσ, Fin.forall_fin_two.2 ⟨hx, hy⟩⟩

/-- All slots of the table are closed at boot. -/
theorem closed_makeSemArray (table : Int32 → Int32) : (closed (makeSemArray table)).card = 512 := by
  rw [closed, Finset.filter_true_of_mem, Finset.card_range]
  intro i hi
  exact makeSemArray_inRange (ofNat_inRange (Finset.mem_range.1 hi))

theorem finished_of_exit {g : Jobs n} (h : g.prog p = some .exit) : ¬ Unfinished g p := by
  rintro ⟨x, hx, hne⟩
  exact hne (Option.some.inj (hx.symm.trans h))

theorem pingpong_oneRound : ∃ σ : KState 2 (Jobs 2) (Fin 2),
    σ.mem.user.prog 0 = some .exit ∧ printed σ.mem.user 0 1 = [(0, "ping\n"), (1, "\tpong\n")] ∧
      σ.mem.value = makeSemArray fun _ => 0 := by
  obtain ⟨σ, hreach, hexit⟩ := oneRound_runs
  obtain ⟨-, hprinted, -, hvalue⟩ := pingpong_of_reach (apart_one (by decide)) (fun _ => by decide)
    (by rw [closed_makeSemArray]; decide) oneRound_launched hreach
  exact ⟨σ, hexit 0, hprinted 0 (hexit 0), hvalue fun p => finished_of_exit (hexit p)⟩

end

end OSLabs.User
