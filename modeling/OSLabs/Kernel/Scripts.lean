/-
  Programs that are lists of system calls, and the kernel that runs them by a
  schedule of its CPUs.
-/
import OSLabs.Kernel.Semaphore

namespace OSLabs.Kernel

open LockMachine

variable {n : ℕ} {P : Call → Prop}

/-- Each process makes the calls of its list, as long as they satisfy `P`, and
    ignores what they return. -/
def scripts (n : ℕ) (P : Call → Prop) : UserSys n (Fin n → List Call) where
  calls p g c g' := P c ∧ g p = c :: g' p ∧ ∀ t ≠ p, g' t = g t
  ret _ g _ := g
  acts _ _ _ := False

namespace Scripts

/-- The next instruction of a process. -/
def pick (P : Call → Prop) [DecidablePred P] (p : Fin n) (q : Point n)
    (m : Mem n (Fin n → List Call)) : Option (KInstr n (Fin n → List Call)) :=
  match q with
  | .free .user =>
    match m.user p with
    | [] => none
    | c :: cs =>
      if P c then
        some (.run (m.setUser (Function.update m.user p cs)) (.free (.killed (.syscall c))))
      else none
  | q => exec (scripts n P) p q m

theorem pick_does [DecidablePred P] {p : Fin n} {q : Point n} {m : Mem n (Fin n → List Call)}
    {i : KInstr n (Fin n → List Call)} (h : pick P p q m = some i) :
    Does (scripts n P) p q m i := by
  unfold pick at h
  split at h
  · split at h
    · cases h
    · rename_i c cs hc
      split_ifs at h with hP
      cases h
      exact .call ⟨hP, by rw [Function.update_self, hc], fun t ht => Function.update_of_ne ht ..⟩
  · exact .code h

/-- The state after a schedule. -/
def run (P : Call → Prop) [DecidablePred P]
    (ok : KState n (Fin n → List Call) (Fin n) → Fin n → Bool) (cs : List (Fin n))
    (table : Int32 → Int32) (g : Fin n → List Call) :
    Option (KState n (Fin n → List Call) (Fin n)) :=
  ticks (code (scripts n P)) (pick P) ok cs (boot table g)

theorem run_reach [DecidablePred P] {ok : KState n (Fin n → List Call) (Fin n) → Fin n → Prop}
    {okb : KState n (Fin n → List Call) (Fin n) → Fin n → Bool}
    (hok : ∀ σ p, okb σ p = true → ok σ p) {cs : List (Fin n)} {table : Int32 → Int32}
    {g : Fin n → List Call} {σ : KState n (Fin n → List Call) (Fin n)}
    (h : run P okb cs table g = some σ) : Reach (code (scripts n P)) (Starts table g) ok σ :=
  ticks_reach hok (fun _ _ _ _ hi => pick_does hi) (.init (boot_starts table g)) h

end Scripts

end OSLabs.Kernel
