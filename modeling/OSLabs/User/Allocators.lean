/-
  Processes that allocate semaphores with get_empty_sem.

  Each process runs `getEmptySem` again and again, ups and downs any semaphores,
  and closes semaphores that it owns.  A process owns a semaphore from the sem_open
  that took it to the sem_close that gives it back (`holds`); no two processes own
  the same one (`Alloc`).
-/
import OSLabs.User.EmptySem

namespace OSLabs.User

open LockMachine OSLabs.Kernel AtomicObject

variable {n : ℕ} {C : Type} [DecidableEq C]

/-! ## The processes -/

/-- What is left of the get_empty_sem that each process runs (none if it runs none),
    and what it got from it and has not closed. -/
structure Owners (n : ℕ) where
  scan : Fin n → Option Calls
  owned : Fin n → List Int32

namespace Owners

def setScan (g : Owners n) (p : Fin n) (x : Option Calls) : Owners n :=
  { g with scan := Function.update g.scan p x }

def setOwned (g : Owners n) (p : Fin n) (l : List Int32) : Owners n :=
  { g with owned := Function.update g.owned p l }

@[simp] theorem setScan_scan (g : Owners n) (p : Fin n) (x : Option Calls) :
    (g.setScan p x).scan = Function.update g.scan p x := rfl

@[simp] theorem setScan_owned (g : Owners n) (p : Fin n) (x : Option Calls) :
    (g.setScan p x).owned = g.owned := rfl

@[simp] theorem setOwned_scan (g : Owners n) (p : Fin n) (l : List Int32) :
    (g.setOwned p l).scan = g.scan := rfl

@[simp] theorem setOwned_owned (g : Owners n) (p : Fin n) (l : List Int32) :
    (g.setOwned p l).owned = Function.update g.owned p l := rfl

/-- The calls of a process: in get_empty_sem those of it, and else any sem_up and
    sem_down, and a sem_close of a semaphore that it owns. -/
inductive Asks (p : Fin n) (g : Owners n) : Call → Owners n → Prop
  | attempt {c : Call} {k : Int32 → Calls} : g.scan p = some (.call c k) → Asks p g c g
  | up {s : Int32} : g.scan p = none → Asks p g (.semUp s) g
  | down {s : Int32} : g.scan p = none → Asks p g (.semDown s) g
  | close {s : Int32} : g.scan p = none → s ∈ g.owned p →
      Asks p g (.semClose s) (g.setOwned p ((g.owned p).erase s))

/-- get_empty_sem goes on with the result of its call. -/
def resume (p : Fin n) (g : Owners n) (r : Int32) : Owners n :=
  match g.scan p with
  | some (.call _ k) => g.setScan p (some (k r))
  | _ => g

/-- get_empty_sem is called, and returns. -/
inductive Acts (p : Fin n) (g : Owners n) : Owners n → Prop
  | start {v : Int32} : 0 ≤ v → g.scan p = none → Acts p g (g.setScan p (some (getEmptySem v)))
  | finish {r : Int32} : g.scan p = some (.ret r) → Acts p g
      ((g.setScan p none).setOwned p (if r = -1 then g.owned p else r :: g.owned p))

end Owners

/-- The processes that allocate semaphores. -/
def allocators : UserSys n (Owners n) where
  calls := Owners.Asks
  ret := Owners.resume
  acts := Owners.Acts

/-! ## What a process owns -/

/-- get_empty_sem, which goes on as soon as its call is performed. -/
def trying : Phase Call Int32 → Option Calls → Option Calls
  | .responded r, some (.call _ k) => some (k r)
  | _, x => x

/-- The slot that get_empty_sem is about to return. -/
def Calls.taken : Calls → List Int32
  | .ret r => if r = -1 then [] else [r]
  | .call _ _ => []

/-- The slot of a sem_close that is not performed yet. -/
def closing : Phase Call Int32 → List Int32
  | .invoked (.semClose s) => [s]
  | _ => []

/-- The semaphores that a process owns. -/
def holds (ph : Phase Call Int32) (x : Option Calls) (owned : List Int32) : List Int32 :=
  closing ph ++ (((trying ph x).map Calls.taken).getD [] ++ owned)

variable {p t : Fin n} {s v r : Int32} {q q' : Point n} {m m' : Mem n (Owners n)} {x : Calls}
  {c : Call} {k : Int32 → Calls} {i : ℕ} {ph : Phase Call Int32} {owned : List Int32}
  {σ σ' : KState n (Owners n) C} {a : Option (Fin n)} {table : Int32 → Int32} {g : Owners n}

abbrev Holds (σ : KState n (Owners n) C) (p : Fin n) : List Int32 :=
  holds (σ.pc p).phase (σ.mem.user.scan p) (σ.mem.user.owned p)

/-- What may be left of get_empty_sem(v). -/
inductive Rest (v : Int32) : Calls → Prop
  | scan {i : ℕ} : i ≤ 512 → Rest v (getEmptySemFrom v i)
  | found {i : ℕ} : i < 512 → Rest v (.ret (.ofNat i))

/-- What a process in a call has called. -/
structure Called (ph : Phase Call Int32) (x : Option Calls) : Prop where
  invoked : ∀ c, ph = .invoked c → (∃ k, x = some (.call c k)) ∨
    x = none ∧ (∀ s v, c ≠ .semOpen s v) ∧ ∀ pid, c ≠ .kill pid
  responded : ∀ r y, ph = .responded r → x = some y → ∃ c k, y = .call c k

theorem Called.idle (x : Option Calls) : Called .idle x := ⟨nofun, nofun⟩

@[simp] theorem trying_none (ph : Phase Call Int32) : trying ph none = none := by
  cases ph <;> rfl

@[simp] theorem trying_idle (x : Option Calls) : trying .idle x = x := by cases x <;> rfl

@[simp] theorem trying_invoked (c : Call) (x : Option Calls) : trying (.invoked c) x = x := by
  cases x <;> rfl

@[simp] theorem trying_exited (x : Option Calls) : trying .exited x = x := by cases x <;> rfl

@[simp] theorem trying_responded (r : Int32) (c : Call) (k : Int32 → Calls) :
    trying (.responded r) (some (.call c k)) = some (k r) := rfl

@[simp] theorem closing_idle : closing .idle = [] := rfl

@[simp] theorem closing_responded (r : Int32) : closing (.responded r) = [] := rfl

@[simp] theorem closing_exited : closing .exited = [] := rfl

@[simp] theorem taken_call (c : Call) (k : Int32 → Calls) : (Calls.call c k).taken = [] := rfl

theorem getEmptySemFrom_taken (v : Int32) (hi : i ≤ 512) : (getEmptySemFrom v i).taken = [] := by
  rcases Nat.lt_or_eq_of_le hi with hlt | rfl
  · rw [getEmptySemFrom_call hlt, taken_call]
  · rfl

theorem ofNat_ne (hi : i < 512) : Int32.ofNat i ≠ -1 := by
  intro hneg
  have := (ofNat_inRange hi).1
  rw [hneg] at this
  exact absurd this (by decide)

theorem rest_getEmptySem (v : Int32) : Rest v (getEmptySem v) := by
  rw [getEmptySem_eq]; exact .scan (Nat.zero_le _)

/-- A call of get_empty_sem is a sem_open, behind which it goes on or returns the slot. -/
theorem Rest.call (h : Rest v (.call c k)) : ∃ i < 512, c = .semOpen (.ofNat i) v ∧
    ∀ r, k r = if r = 0 then getEmptySemFrom v (i + 1) else .ret (.ofNat i) := by
  generalize hx : Calls.call c k = x at h
  cases h with
  | @scan i hi =>
    rcases Nat.lt_or_eq_of_le hi with hlt | rfl
    · rw [getEmptySemFrom_call hlt] at hx
      cases hx
      exact ⟨i, hlt, rfl, fun _ => rfl⟩
    · cases hx
  | found _ => cases hx

theorem Rest.next (h : Rest v (.call c k)) (r : Int32) : Rest v (k r) := by
  obtain ⟨i, hi, -, hk⟩ := h.call
  rw [hk]
  split_ifs
  · exact .scan hi
  · exact .found hi

/-- What get_empty_sem returns is -1, or a slot of the table. -/
theorem Rest.ret (h : Rest v (.ret r)) : r = -1 ∨ InRange r := by
  generalize hx : Calls.ret r = x at h
  cases h with
  | @scan i hi =>
    rcases Nat.lt_or_eq_of_le hi with hlt | rfl
    · rw [getEmptySemFrom_call hlt] at hx; cases hx
    · cases hx; exact .inl rfl
  | found hi => cases hx; exact .inr (ofNat_inRange hi)

/-! ## One step -/

/-- A process only changes what is its own. -/
theorem reply_frame (h : Reply allocators p m m' q q') (ht : t ≠ p) :
    m'.user.scan t = m.user.scan t ∧ m'.user.owned t = m.user.owned t := by
  cases h with
  | stutter _ huser _ _ => rw [huser]; exact ⟨rfl, rfl⟩
  | invoke _ hcall _ _ _ =>
    generalize m'.user = g' at hcall ⊢
    cases hcall with
    | close _ _ => exact ⟨rfl, Function.update_of_ne ht ..⟩
    | _ => exact ⟨rfl, rfl⟩
  | respond _ huser _ _ _ =>
    rw [huser]
    simp only [allocators, Owners.resume]
    split
    · exact ⟨Function.update_of_ne ht .., rfl⟩
    · exact ⟨rfl, rfl⟩
  | act _ hact _ _ _ =>
    generalize m'.user = g' at hact ⊢
    cases hact with
    | start _ _ => exact ⟨Function.update_of_ne ht .., rfl⟩
    | finish _ => exact ⟨Function.update_of_ne ht .., Function.update_of_ne ht ..⟩
  | exit _ huser _ _ => rw [huser]; exact ⟨rfl, rfl⟩
  | perform _ _ _ huser _ _ => rw [huser]; exact ⟨rfl, rfl⟩

/-- How get_empty_sem goes on: it is where it was, its call is performed, or it
    returns. -/
inductive Tries (m m' : Mem n (Owners n)) (p : Fin n) (q q' : Point n) (x : Calls) : Prop
  | same : trying q'.phase (m'.user.scan p) = trying q.phase (some x) →
      m'.user.owned p = m.user.owned p → m'.value = m.value → m'.isOpen = m.isOpen →
      closing q.phase = [] → closing q'.phase = [] → Tries m m' p q q' x
  | attempt {c : Call} {k : Int32 → Calls} {r : Int32} : x = .call c k → q.phase = .invoked c →
      q'.phase = .responded r → Outcome m m' c r → (r = success → q = c.point) →
      m'.user = m.user → Tries m m' p q q' x
  | finish {r : Int32} : x = .ret r → q.phase = .idle → q'.phase = .idle →
      m'.user = (m.user.setScan p none).setOwned p
        (if r = -1 then m.user.owned p else r :: m.user.owned p) →
      m'.value = m.value → m'.isOpen = m.isOpen → Tries m m' p q q' x

theorem reply_tries (h : Reply allocators p m m' q q') (hx : m.user.scan p = some x)
    (hc : Called q.phase (m.user.scan p)) (hrest : Rest v x) (ha : q'.phase ≠ .exited) :
    Tries m m' p q q' x := by
  have hcall : ∀ {c}, q.phase = .invoked c → ∃ k, x = .call c k := by
    intro c hph
    rcases hc.invoked c hph with ⟨k, hk⟩ | ⟨hnone, -⟩
    · rw [hx] at hk; exact ⟨k, Option.some.inj hk⟩
    · rw [hx] at hnone; cases hnone
  have hclosing : closing q.phase = [] := by
    cases hph : q.phase with
    | invoked c =>
      obtain ⟨k, rfl⟩ := hcall hph
      obtain ⟨i, -, rfl, -⟩ := hrest.call
      rfl
    | _ => rfl
  cases h with
  | stutter hphase huser hv ho =>
    exact .same (by rw [hphase, huser, hx]) (by rw [huser]) hv ho hclosing (by rw [hphase, hclosing])
  | invoke hidle hask hphase hv ho =>
    generalize hg : m'.user = g' at hask
    cases hask with
    | attempt hx' =>
      rw [hx] at hx'
      cases hx'
      obtain ⟨i, -, rfl, -⟩ := hrest.call
      exact .same (by rw [hg, hx, hphase, hidle, trying_idle, trying_invoked]) (by rw [hg]) hv ho
        hclosing (by rw [hphase]; rfl)
    | up hnone => rw [hx] at hnone; cases hnone
    | down hnone => rw [hx] at hnone; cases hnone
    | close hnone _ => rw [hx] at hnone; cases hnone
  | @respond r hphase huser hidle hv ho =>
    obtain ⟨c, k, rfl⟩ := hc.responded r x hphase hx
    have huser' : m'.user = m.user.setScan p (some (k r)) := by
      rw [huser]; simp only [allocators, Owners.resume, hx]
    exact .same (by rw [huser', hidle, hphase, trying_idle]; simp) (by rw [huser']; rfl)
      hv ho hclosing (by rw [hidle]; rfl)
  | act hidle hact hidle' hv ho =>
    generalize hg : m'.user = g' at hact
    cases hact with
    | start _ hnone => rw [hx] at hnone; cases hnone
    | finish hx' =>
      rw [hx] at hx'
      cases hx'
      exact .finish rfl hidle hidle' hg hv ho
  | exit hphase _ _ _ => exact absurd hphase ha
  | perform hinv hresp hout huser hpoint _ =>
    obtain ⟨k, rfl⟩ := hcall hinv
    exact .attempt rfl hinv hresp hout hpoint huser

/-- How what a process owns changes with what is open. -/
inductive Handover (isOpen isOpen' : Int32 → Bool) (l l' : List Int32) : Prop
  | keep : l'.Nodup → l' ⊆ l → isOpen' = isOpen → Handover isOpen isOpen' l l'
  | take {s : Int32} : InRange s → isOpen s = false → l' = s :: l →
      isOpen' = Function.update isOpen s true → Handover isOpen isOpen' l l'
  | drop {s : Int32} : l = s :: l' → isOpen' = Function.update isOpen s false →
      Handover isOpen isOpen' l l'

theorem holds_none (ph : Phase Call Int32) (owned : List Int32) :
    holds ph none owned = closing ph ++ owned := by simp [holds]

/-- **What a process owns is open**: its moves keep it, take a slot that was
    closed, or drop the slot that they close. -/
theorem reply_handover (h : Reply allocators p m m' q q') (hc : Called q.phase (m.user.scan p))
    (hrest : ∀ x, m.user.scan p = some x → ∃ v, 0 ≤ v ∧ Rest v x)
    (hvalue : ∀ s, InRange s → ValueOk m s) (ha : q'.phase ≠ .exited)
    (hnodup : (holds q.phase (m.user.scan p) (m.user.owned p)).Nodup) :
    Handover m.isOpen m'.isOpen (holds q.phase (m.user.scan p) (m.user.owned p))
      (holds q'.phase (m'.user.scan p) (m'.user.owned p)) := by
  have hsame : ∀ {l}, l = holds q.phase (m.user.scan p) (m.user.owned p) →
      m'.isOpen = m.isOpen →
      Handover m.isOpen m'.isOpen (holds q.phase (m.user.scan p) (m.user.owned p)) l := by
    rintro l rfl ho
    exact .keep hnodup (List.Subset.refl _) ho
  cases hx : m.user.scan p with
  | some x =>
    rw [hx] at hnodup hsame
    obtain ⟨v, -, hxrest⟩ := hrest x hx
    cases reply_tries h hx hc hxrest ha with
    | same htrying howned _ ho hclosing hclosing' =>
      refine hsame ?_ ho
      simp only [holds, htrying, howned, hclosing, hclosing']
    | @attempt c k r hcall hinv hresp hout _ huser =>
      subst hcall
      obtain ⟨i, hi, rfl, hk⟩ := hxrest.call
      have hold : holds q.phase (some (.call (.semOpen (.ofNat i) v) k)) (m.user.owned p) =
          m.user.owned p := by
        rw [hinv]; simp [holds, closing]
      have hnew : holds q'.phase (m'.user.scan p) (m'.user.owned p) =
          (k r).taken ++ m.user.owned p := by
        rw [hresp, huser, hx]; simp [holds]
      have herr : (k err).taken = [] := by
        rw [hk, if_pos (show err = 0 from rfl)]; exact getEmptySemFrom_taken v hi
      rw [hnew, hold]
      rw [hold] at hsame hnodup
      cases hout with
      | reject _ _ ho => rw [herr]; exact hsame rfl ho
      | openErr _ _ ho => rw [herr]; exact hsame rfl ho
      | openOk hempty _ ho =>
        have htaken : (k success).taken = [Int32.ofNat i] := by
          rw [hk, if_neg (by decide)]; exact if_neg (ofNat_ne hi)
        rw [htaken]
        refine .take (ofNat_inRange hi) ?_ rfl ho
        by_contra hopen
        have := (hvalue _ (ofNat_inRange hi)).1 (by simpa using hopen)
        rw [hempty] at this
        exact absurd this (by decide)
    | @finish r hret hidle hidle' huser _ ho =>
      subst hret
      refine hsame ?_ ho
      rw [hidle, hidle', huser]
      by_cases hr : r = -1
      · simp [holds, Calls.taken, hr]
      · simp [holds, Calls.taken, hr]
  | none =>
    rw [hx, holds_none] at hnodup hsame
    rw [holds_none]
    cases h with
    | stutter hphase huser _ ho =>
      refine hsame ?_ ho
      rw [hphase, huser, hx, holds_none]
    | invoke hidle hcall hphase _ ho =>
      generalize m'.user = g' at hcall ⊢
      cases hcall with
      | attempt hx' => rw [hx] at hx'; cases hx'
      | up _ => exact hsame (by rw [hphase, hidle, hx, holds_none]; rfl) ho
      | down _ => exact hsame (by rw [hphase, hidle, hx, holds_none]; rfl) ho
      | @close s _ hs =>
        have hperm : (s :: (m.user.owned p).erase s).Perm (m.user.owned p) :=
          (List.perm_cons_erase hs).symm
        have hnew : holds q'.phase ((m.user.setOwned p ((m.user.owned p).erase s)).scan p)
            ((m.user.setOwned p ((m.user.owned p).erase s)).owned p) =
              s :: (m.user.owned p).erase s := by
          rw [hphase]; simp [hx, holds_none, closing]
        rw [hidle] at hnodup ⊢
        rw [hnew]
        exact .keep (hperm.nodup_iff.2 hnodup) hperm.subset ho
    | @respond r hphase huser hidle _ ho =>
      refine hsame ?_ ho
      have huser' : m'.user = m.user := by
        rw [huser]; simp only [allocators, Owners.resume, hx]
      rw [hphase, hidle, huser', hx, holds_none]; rfl
    | act hidle hact hidle' _ ho =>
      generalize m'.user = g' at hact ⊢
      cases hact with
      | @start v _ _ =>
        refine hsame ?_ ho
        have htaken := getEmptySemFrom_taken v (Nat.zero_le 512)
        rw [hidle, hidle']
        simp [holds, getEmptySem_eq, htaken]
      | finish hx' => rw [hx] at hx'; cases hx'
    | exit hexit _ _ _ => exact absurd hexit ha
    | @perform c r hinv hresp hout huser _ _ =>
      rw [hresp, huser, hx, holds_none]
      rw [hinv] at hsame hnodup ⊢
      have hsub : (m.user.owned p).Sublist (closing (.invoked c) ++ m.user.owned p) :=
        List.sublist_append_right ..
      have hkeep : m'.isOpen = m.isOpen → Handover m.isOpen m'.isOpen
          (closing (.invoked c) ++ m.user.owned p) (closing (.responded r) ++ m.user.owned p) :=
        fun ho => .keep (hsub.nodup hnodup) hsub.subset ho
      cases hout with
      | reject _ _ ho => exact hkeep ho
      | openErr _ _ ho => exact hkeep ho
      | openOk _ _ _ =>
        rcases hc.invoked _ hinv with ⟨_, hx'⟩ | ⟨-, hne, -⟩
        · rw [hx] at hx'; cases hx'
        · exact absurd rfl (hne _ _)
      | close _ ho => exact .drop rfl ho
      | upErr _ _ ho => exact hkeep ho
      | upOk _ ho => exact hkeep ho
      | downErr _ _ ho => exact hkeep ho
      | downOk _ ho => exact hkeep ho
      | kill _ ho => exact hkeep ho

theorem reply_scan (h : Reply allocators p m m' q q') (hc : Called q.phase (m.user.scan p))
    (hrest : ∀ x, m.user.scan p = some x → ∃ v, 0 ≤ v ∧ Rest v x) :
    (∀ x, m'.user.scan p = some x → ∃ v, 0 ≤ v ∧ Rest v x) ∧
      Called q'.phase (m'.user.scan p) := by
  cases h with
  | stutter hphase huser _ _ => rw [hphase, huser]; exact ⟨hrest, hc⟩
  | invoke _ hcall hphase _ _ =>
    rw [hphase]
    generalize m'.user = g' at hcall ⊢
    cases hcall with
    | @attempt c k hx =>
      refine ⟨hrest, fun c hc' => ?_, nofun⟩
      cases hc'; exact .inl ⟨k, hx⟩
    | up hnone =>
      refine ⟨hrest, fun c hc' => ?_, nofun⟩
      cases hc'; exact .inr ⟨hnone, nofun, nofun⟩
    | down hnone =>
      refine ⟨hrest, fun c hc' => ?_, nofun⟩
      cases hc'; exact .inr ⟨hnone, nofun, nofun⟩
    | close hnone _ =>
      refine ⟨hrest, fun c hc' => ?_, nofun⟩
      cases hc'; exact .inr ⟨hnone, nofun, nofun⟩
  | @respond r hphase huser hidle' _ _ =>
    rw [hidle', huser]
    refine ⟨fun x hx' => ?_, .idle _⟩
    cases hx : m.user.scan p with
    | some y =>
      obtain ⟨c, k, rfl⟩ := hc.responded r y hphase hx
      obtain ⟨v, hv, hy⟩ := hrest _ hx
      simp only [allocators, Owners.resume, hx, Owners.setScan_scan, Function.update_self] at hx'
      cases hx'
      exact ⟨v, hv, hy.next r⟩
    | none =>
      simp only [allocators, Owners.resume, hx] at hx'
      cases hx'
  | act _ hact hidle' _ _ =>
    rw [hidle']
    generalize m'.user = g' at hact ⊢
    cases hact with
    | @start v hv _ =>
      refine ⟨fun x hx => ?_, .idle _⟩
      rw [Owners.setScan_scan, Function.update_self] at hx
      rw [← Option.some.inj hx]
      exact ⟨v, hv, rest_getEmptySem v⟩
    | finish _ =>
      refine ⟨fun x hx => ?_, .idle _⟩
      rw [Owners.setOwned_scan, Owners.setScan_scan, Function.update_self] at hx
      cases hx
  | exit hexit huser _ _ => rw [hexit, huser]; exact ⟨hrest, nofun, nofun⟩
  | perform hinv hresp _ huser _ _ =>
    rw [hresp, huser]
    refine ⟨hrest, nofun, fun r' x _ hx => ?_⟩
    rcases hc.invoked _ hinv with ⟨k, hk⟩ | ⟨hnone, -⟩
    · rw [hx] at hk; exact ⟨_, k, Option.some.inj hk⟩
    · rw [hx] at hnone; cases hnone

/-- Nobody in get_empty_sem kills. -/
theorem Called.not_kill (h : Called ph (m.user.scan p))
    (hrest : ∀ x, m.user.scan p = some x → ∃ v, 0 ≤ v ∧ Rest v x) (pid : Int32) :
    ph ≠ .invoked (.kill pid) := by
  intro hph
  rcases h.invoked _ hph with ⟨k, hk⟩ | ⟨-, -, hne⟩
  · obtain ⟨v, -, hx⟩ := hrest _ hk
    obtain ⟨i, -, hc, -⟩ := hx.call
    cases hc
  · exact hne pid rfl

/-! ## The invariant -/

/-- **The invariant of the allocation.** -/
structure Alloc (σ : KState n (Owners n) C) : Prop where
  kernel : KInv allocators σ
  values : ∀ s, InRange s → ValueInv s σ
  waits : ∀ s, InRange s → ∀ p, (σ.pc p).waits s → σ.mem.value s ≠ emptySem
  killed : ∀ p, σ.mem.killed p = false
  alive : ∀ p, Alive (σ.pc p)
  rest : ∀ p x, σ.mem.user.scan p = some x → ∃ v, 0 ≤ v ∧ Rest v x
  called : ∀ p, Called (σ.pc p).phase (σ.mem.user.scan p)
  held : ∀ p, ∀ s ∈ Holds σ p, InRange s ∧ σ.mem.isOpen s = true
  nodup : ∀ p, (Holds σ p).Nodup
  apart : ∀ p t s, s ∈ Holds σ p → s ∈ Holds σ t → p = t

/-- The next step of `p` overflows no semaphore of the table, and closes none
    that a sem_down waits on. -/
def Orderly (σ : KState n (Owners n) C) (p : Fin n) : Prop :=
  ∀ s, InRange s → NoOverflow s σ p ∧ ClosesIdle s σ p

omit [DecidableEq C] in
/-- What one process holds behind its handover, and that the semaphores of the
    others stay open, and theirs. -/
theorem Alloc.handover (h : Alloc σ) {isOpen : Int32 → Bool} {l : List Int32}
    (hhand : Handover σ.mem.isOpen isOpen (Holds σ p) l) :
    (∀ s ∈ l, InRange s ∧ isOpen s = true) ∧ l.Nodup ∧
      (∀ t ≠ p, ∀ s ∈ Holds σ t, isOpen s = true) ∧ ∀ t ≠ p, ∀ s ∈ l, s ∉ Holds σ t := by
  cases hhand with
  | keep hnodup hsub ho =>
    rw [ho]
    refine ⟨fun s hs => h.held p s (hsub hs), hnodup, fun t _ s hs => (h.held t s hs).2, ?_⟩
    intro t ht s hs hst
    exact ht (h.apart t p s hst (hsub hs))
  | @take s₀ hr hclosed hl ho =>
    have hfresh : ∀ t, s₀ ∉ Holds σ t := by
      intro t ht
      rw [(h.held t s₀ ht).2] at hclosed; cases hclosed
    rw [ho, hl]
    refine ⟨?_, List.nodup_cons.2 ⟨hfresh p, h.nodup p⟩, ?_, ?_⟩
    · intro s hs
      rcases List.mem_cons.1 hs with rfl | hmem
      · exact ⟨hr, Function.update_self ..⟩
      · rw [Function.update_of_ne (by rintro rfl; exact hfresh p hmem)]
        exact h.held p s hmem
    · intro t _ s hs
      rw [Function.update_of_ne (by rintro rfl; exact hfresh t hs)]
      exact (h.held t s hs).2
    · intro t ht s hs hst
      rcases List.mem_cons.1 hs with rfl | hs
      · exact hfresh t hst
      · exact ht (h.apart t p s hst hs)
  | @drop s₀ hl ho =>
    have hnodup := h.nodup p
    rw [hl, List.nodup_cons] at hnodup
    have hsub : ∀ s ∈ l, s ∈ Holds σ p := by
      intro s hs
      rw [hl]; exact List.mem_cons_of_mem _ hs
    rw [ho]
    refine ⟨?_, hnodup.2, ?_, ?_⟩
    · intro s hs
      rw [Function.update_of_ne (by rintro rfl; exact hnodup.1 hs)]
      exact h.held p s (hsub s hs)
    · intro t ht s hs
      rw [Function.update_of_ne]
      · exact (h.held t s hs).2
      · rintro rfl
        exact ht (h.apart t p s hs (by rw [hl]; exact List.mem_cons_self ..))
    · intro t ht s hs hst
      exact ht (h.apart t p s hst (hsub s hs))

theorem Alloc.step (h : Alloc σ) (hstep : Step (code allocators) σ a σ')
    (hok : ∀ p, a = some p → Orderly σ p) : Alloc σ' := by
  have hkernel := h.kernel.step hstep
  have hvalues : ∀ s, InRange s → ValueInv s σ' := fun s hr =>
    (h.values s hr).step h.kernel hstep (fun p hp => (hok p hp s hr).1)
      fun p _ hpc => h.waits s hr p (by rw [hpc]; rfl)
  have hwaits : ∀ s, InRange s → ∀ p, (σ'.pc p).waits s → σ'.mem.value s ≠ emptySem :=
    fun s hr => waits_step (h.waits s hr) h.kernel hstep (fun p hp => (hok p hp s hr).2)
      fun _ _ _ => (h.values s hr).value.bound
  rcases step_cases hstep with ⟨-, hpc, hm⟩ | ⟨p, q, rfl, -, hq, hpc⟩
  · have hmem : σ'.mem.user = σ.mem.user ∧ σ'.mem.isOpen = σ.mem.isOpen ∧
        σ'.mem.killed = σ.mem.killed := by
      rcases hm with hm | ⟨t, -, hm⟩ <;> rw [hm] <;> exact ⟨rfl, rfl, rfl⟩
    obtain ⟨huser, hopen, hkilled⟩ := hmem
    constructor
    case kernel => exact hkernel
    case values => exact hvalues
    case waits => exact hwaits
    case killed => rw [hkilled]; exact h.killed
    case alive => rw [hpc]; exact h.alive
    case rest => rw [huser]; exact h.rest
    case called => rw [hpc, huser]; exact h.called
    case held => simp only [Holds, hpc, huser, hopen]; exact h.held
    case nodup => simp only [Holds, hpc, huser]; exact h.nodup
    case apart => simp only [Holds, hpc, huser]; exact h.apart
  · have hreply := hq.reply
    have hself : σ'.pc p = q := by rw [hpc, Function.update_self]
    have hpcs : ∀ t ≠ p, σ'.pc t = σ.pc t := fun t ht => by rw [hpc, Function.update_of_ne ht]
    have hframe := fun t ht => reply_frame (t := t) hreply ht
    have hothers : ∀ t ≠ p, Holds σ' t = Holds σ t := by
      intro t ht
      simp only [Holds, hpcs t ht, (hframe t ht).1, (hframe t ht).2]
    obtain ⟨hrest, hcalled⟩ := reply_scan hreply (h.called p) (h.rest p)
    obtain ⟨halive, hkilled⟩ := alive_move hq (h.alive p) (h.killed p)
      ((h.called p).not_kill (h.rest p))
    have hhand : Handover σ.mem.isOpen σ'.mem.isOpen (Holds σ p) (Holds σ' p) := by
      have := reply_handover hreply (h.called p) (h.rest p) (fun s hr => (h.values s hr).value)
        halive.1 (h.nodup p)
      simp only [Holds, hself]; exact this
    obtain ⟨hheld, hnodup, hopen, hapart⟩ := h.handover hhand
    constructor
    case kernel => exact hkernel
    case values => exact hvalues
    case waits => exact hwaits
    case killed => rw [hkilled]; exact h.killed
    case alive =>
      intro t
      by_cases ht : t = p
      · subst ht; rw [hself]; exact halive
      · rw [hpcs t ht]; exact h.alive t
    case rest =>
      intro t x hx
      by_cases ht : t = p
      · subst ht; exact hrest x hx
      · exact h.rest t x (by rw [← (hframe t ht).1, hx])
    case called =>
      intro t
      by_cases ht : t = p
      · subst ht; rw [hself]; exact hcalled
      · rw [hpcs t ht, (hframe t ht).1]; exact h.called t
    case held =>
      intro t s hs
      by_cases ht : t = p
      · subst ht; exact hheld s hs
      · rw [hothers t ht] at hs; exact ⟨(h.held t s hs).1, hopen t ht s hs⟩
    case nodup =>
      intro t
      by_cases ht : t = p
      · subst ht; exact hnodup
      · rw [hothers t ht]; exact h.nodup t
    case apart =>
      intro t t' s hs hs'
      by_cases ht : t = p
      · subst ht
        by_cases ht' : t' = t
        · exact ht'.symm
        · rw [hothers t' ht'] at hs'; exact absurd hs' (hapart t' ht' s hs)
      · rw [hothers t ht] at hs
        by_cases ht' : t' = p
        · subst ht'; exact absurd hs (hapart t ht s hs')
        · rw [hothers t' ht'] at hs'; exact h.apart t t' s hs hs'

end OSLabs.User
