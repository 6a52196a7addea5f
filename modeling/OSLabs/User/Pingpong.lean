/-
  pingpong (lab2, pingpong.c), and where an instance of it is.

  A `Stage` is where the two processes of an instance are: its programs, the
  semaphores it owns with their tokens, and the lines it has yet to print.
-/
import OSLabs.User.EmptySem

namespace OSLabs.User

open OSLabs.Kernel

/-! ## The program -/

/-- The loop of the child, with this many iterations left. -/
def childLoop (fatherSem childSem : Int32) : ℕ → Prog
  | 0 => .exit
  | m + 1 =>
    .call (.semDown childSem) fun _ =>
    .print "\tpong\n" <|
    .call (.semUp fatherSem) fun _ =>
    childLoop fatherSem childSem m

/-- The loop of the father, with this many iterations left, and its end. -/
def fatherLoop (fatherSem childSem : Int32) : ℕ → Prog
  | 0 =>
    .wait <|
    .call (.semClose childSem) fun _ =>
    .call (.semClose fatherSem) fun _ =>
    .exit
  | m + 1 =>
    .print "ping\n" <|
    .call (.semUp childSem) fun _ =>
    .call (.semDown fatherSem) fun _ =>
    fatherLoop fatherSem childSem m

/-- `main` behind the second semaphore. -/
def haveChildSem (n : ℕ) (fatherSem childSem : Int32) : Prog :=
  if childSem = -1 then .print "ERROR: No empty semaphore.\n" .exit
  else .fork fun childId =>
    if childId = -1 then .print "ERROR: fork failed.\n" .exit
    else if childId = 0 then childLoop fatherSem childSem n
    else fatherLoop fatherSem childSem n

/-- `main` behind the first semaphore. -/
def haveFatherSem (n : ℕ) (fatherSem : Int32) : Prog :=
  if fatherSem = -1 then .print "ERROR: No empty semaphore.\n" .exit
  else (getEmptySem 0).seq (haveChildSem n fatherSem)

/-- `n` is `atoi(argv[1])`. -/
def main (argc n : Int32) : Prog :=
  if argc ≠ 2 then .print "ERROR: Not exactly 1 argument.\n" .exit
  else if n ≤ 0 then .print "ERROR: Invalid argument.\n" .exit
  else (getEmptySem 0).seq (haveFatherSem n.toNatClampNeg)

/-! ## Stages -/

/-- The father in its loop, with the number of iterations behind this one. -/
inductive Father where
  | ping (m : ℕ)
  | up (m : ℕ)
  | down (m : ℕ)
  | wait

/-- The child in its loop, with the number of iterations behind this one. -/
inductive Child where
  | down (m : ℕ)
  | pong (m : ℕ)
  | up (m : ℕ)
  | exit

/-- Where an instance of pingpong is. -/
inductive Stage where
  | scanFather (i : ℕ)
  | scanChild (f : Int32) (i : ℕ)
  | fork (f c : Int32)
  | play (f c : Int32) (a : Father) (b : Child)
  | closeChild (f c : Int32)
  | closeFather (f c : Int32)
  | done (f c : Int32)

namespace Father

/-- The father with this many iterations left. -/
def next : ℕ → Father
  | 0 => .wait
  | m + 1 => .ping m

def prog (f c : Int32) : Father → Prog
  | ping m => fatherLoop f c (m + 1)
  | up m => .call (.semUp c) fun _ => .call (.semDown f) fun _ => fatherLoop f c m
  | down m => .call (.semDown f) fun _ => fatherLoop f c m
  | wait => fatherLoop f c 0

/-- The pings that are left. -/
def pings : Father → ℕ
  | ping m => m + 1
  | up m => m
  | down m => m
  | wait => 0

/-- The ups of the child's semaphore that are left. -/
def ups : Father → ℕ
  | ping m => m + 1
  | up m => m + 1
  | down m => m
  | wait => 0

/-- The downs of the father's semaphore that are left. -/
def downs : Father → ℕ
  | ping m => m + 1
  | up m => m + 1
  | down m => m + 1
  | wait => 0

variable (f c : Int32) (m : ℕ)

@[simp] theorem next_prog : (next m).prog f c = fatherLoop f c m := by cases m <;> rfl

@[simp] theorem next_pings : (next m).pings = m := by cases m <;> rfl

@[simp] theorem next_ups : (next m).ups = m := by cases m <;> rfl

@[simp] theorem next_downs : (next m).downs = m := by cases m <;> rfl

end Father

namespace Child

/-- The child with this many iterations left. -/
def next : ℕ → Child
  | 0 => .exit
  | m + 1 => .down m

def prog (f c : Int32) : Child → Prog
  | down m => childLoop f c (m + 1)
  | pong m => .print "\tpong\n" (.call (.semUp f) fun _ => childLoop f c m)
  | up m => .call (.semUp f) fun _ => childLoop f c m
  | exit => childLoop f c 0

/-- The downs of the child's semaphore that are left. -/
def downs : Child → ℕ
  | down m => m + 1
  | pong m => m
  | up m => m
  | exit => 0

/-- The pongs that are left. -/
def pongs : Child → ℕ
  | down m => m + 1
  | pong m => m + 1
  | up m => m
  | exit => 0

/-- The ups of the father's semaphore that are left. -/
def ups : Child → ℕ
  | down m => m + 1
  | pong m => m + 1
  | up m => m + 1
  | exit => 0

variable (f c : Int32) (m : ℕ)

@[simp] theorem next_prog : (next m).prog f c = childLoop f c m := by cases m <;> rfl

@[simp] theorem next_downs : (next m).downs = m := by cases m <;> rfl

@[simp] theorem next_pongs : (next m).pongs = m := by cases m <;> rfl

@[simp] theorem next_ups : (next m).ups = m := by cases m <;> rfl

end Child

/-- The father's and the child's semaphore with their tokens. -/
def twoSems (f c : Int32) (x y : ℤ) : Slots :=
  Function.update (Function.update (fun _ => none) f (some x)) c (some y)

namespace Stage

/-- The rest of the father's program, in an instance of `n` rounds. -/
def fatherProg (n : ℕ) : Stage → Prog
  | scanFather i => (getEmptySemFrom 0 i).seq (haveFatherSem n)
  | scanChild f i => (getEmptySemFrom 0 i).seq (haveChildSem n f)
  | fork f c => haveChildSem n f c
  | play f c a _ => a.prog f c
  | closeChild f c => .call (.semClose c) fun _ => .call (.semClose f) fun _ => .exit
  | closeFather f _ => .call (.semClose f) fun _ => .exit
  | done _ _ => .exit

/-- The rest of the child's program. -/
def childProg : Stage → Option Prog
  | play f c _ b => some (b.prog f c)
  | closeChild _ _ => some .exit
  | closeFather _ _ => some .exit
  | done _ _ => some .exit
  | _ => none

/-- The semaphores that the instance owns, with their tokens. -/
def own : Stage → Slots
  | scanFather _ => fun _ => none
  | scanChild f _ => Function.update (fun _ => none) f (some 0)
  | fork f c => twoSems f c 0 0
  | play f c a b => twoSems f c (a.downs - b.ups) (b.downs - a.ups)
  | closeChild f c => twoSems f c 0 0
  | closeFather f _ => Function.update (fun _ => none) f (some 0)
  | done _ _ => fun _ => none

/-- The semaphores that the instance ever owned. -/
def took : Stage → List Int32
  | scanFather _ => []
  | scanChild f _ => [f]
  | fork f c => [f, c]
  | play f c _ _ => [f, c]
  | closeChild f c => [f, c]
  | closeFather f c => [f, c]
  | done f c => [f, c]

/-- The slot that get_empty_sem tries next. -/
def scan : Stage → Option ℕ
  | scanFather i => some i
  | scanChild _ i => some i
  | _ => none

/-- What holds in an instance by itself. -/
def Ok : Stage → Prop
  | fork f c => f ≠ c
  | play f c a b => f ≠ c ∧ b.ups ≤ a.downs ∧ a.ups ≤ b.downs
  | closeChild f c => f ≠ c
  | _ => True

/-- The next slot, when the one that get_empty_sem tried is taken. -/
def failed : Stage → Stage
  | scanFather i => scanFather (i + 1)
  | scanChild f i => scanChild f (i + 1)
  | st => st

/-- The stage behind get_empty_sem, when it gets the slot that it tries. -/
def found : Stage → Stage
  | scanFather i => scanChild (Int32.ofNat i) 0
  | scanChild f i => fork f (Int32.ofNat i)
  | st => st

end Stage

/-- The lines of `n` rounds of the processes `p` and `t`. -/
def rounds {P : Type} (p t : P) : ℕ → List (P × String)
  | 0 => []
  | n + 1 => (p, "ping\n") :: (t, "\tpong\n") :: rounds p t n

/-- The lines that an instance of `n` rounds has yet to print. -/
def Stage.rest {P : Type} (p t : P) (n : ℕ) : Stage → List (P × String)
  | scanFather _ => rounds p t n
  | scanChild _ _ => rounds p t n
  | fork _ _ => rounds p t n
  | play _ _ a b =>
    if a.pings < b.pongs then (t, "\tpong\n") :: rounds p t a.pings else rounds p t a.pings
  | _ => []

/-! ## Facts of a stage -/

section
variable {st st' : Stage} {s f c : Int32} {i m n : ℕ} {a : Father} {b : Child}

theorem inRange_ne (hs : InRange s) : s ≠ -1 := by
  rintro rfl
  exact absurd hs (by decide)

theorem haveFatherSem_inRange (hs : InRange f) :
    haveFatherSem n f = (Stage.scanChild f 0).fatherProg n := if_neg (inRange_ne hs)

theorem haveChildSem_inRange (hs : InRange c) :
    haveChildSem n f c = .fork fun childId =>
      if childId = -1 then .print "ERROR: fork failed.\n" .exit
      else if childId = 0 then childLoop f c n
      else fatherLoop f c n := if_neg (inRange_ne hs)

/-- The father looks for a semaphore. -/
theorem Stage.fatherProg_scan (h : st.scan = some i) (hi : i < 512) :
    st.fatherProg n = .call (.semOpen (Int32.ofNat i) 0) fun r =>
      if r = 0 then st.failed.fatherProg n else st.found.fatherProg n := by
  have hseq : ∀ k : Int32 → Prog, (getEmptySemFrom 0 i).seq k =
      .call (.semOpen (Int32.ofNat i) 0) fun r =>
        if r = 0 then (getEmptySemFrom 0 (i + 1)).seq k else k (Int32.ofNat i) := by
    intro k
    rw [getEmptySemFrom_call hi, Calls.seq]
    congr 1
    funext r
    split_ifs <;> rfl
  cases st with
  | scanFather j =>
    cases h
    refine (hseq _).trans ?_
    rw [haveFatherSem_inRange (ofNat_inRange hi)]; rfl
  | scanChild f j => cases h; exact hseq _
  | _ => cases h

theorem Stage.childProg_scan (h : st.scan = some i) :
    st.childProg = none ∧ st.failed.childProg = none ∧ st.found.childProg = none := by
  cases st <;> first | exact ⟨rfl, rfl, rfl⟩ | cases h

theorem Stage.own_failed (st : Stage) : st.failed.own = st.own := by cases st <;> rfl

theorem Stage.took_failed (st : Stage) : st.failed.took = st.took := by cases st <;> rfl

theorem Stage.scan_failed (h : st.scan = some i) : st.failed.scan = some (i + 1) := by
  cases st <;> first | (cases h; rfl) | cases h

theorem Stage.rest_scan {P : Type} {p t : P} (h : st.scan = some i) :
    st.rest p t n = rounds p t n ∧ st.failed.rest p t n = rounds p t n ∧
      st.found.rest p t n = rounds p t n := by
  cases st <;> first | exact ⟨rfl, rfl, rfl⟩ | cases h

/-- The slot that was found is owned, without tokens. -/
theorem Stage.own_found (h : st.scan = some i) :
    st.found.own = Function.update st.own (Int32.ofNat i) (some 0) := by
  cases st with
  | scanFather j => cases h; rfl
  | scanChild f j => cases h; rfl
  | _ => cases h

theorem Stage.took_found (h : st.scan = some i) : st.found.took = st.took ++ [Int32.ofNat i] := by
  cases st <;> first | (cases h; rfl) | cases h

theorem Stage.scan_found (h : st.scan = some i) : ∀ j, st.found.scan = some j → j = 0 := by
  cases st with
  | scanFather j => intro k hk; cases hk; rfl
  | scanChild f j => exact nofun
  | _ => cases h

theorem Stage.ok_found (h : st.scan = some i) (hown : st.own (Int32.ofNat i) = none) :
    st.found.Ok := by
  cases st with
  | scanFather j => trivial
  | scanChild f j =>
    cases h
    rintro rfl
    simp [own] at hown
  | _ => cases h

/-- How an instance goes on: it leaves a scan by the slot that it tries, and does
    not scan again. -/
structure Stage.Onward (st st' : Stage) : Prop where
  scan_some : st.scan ≠ none → st' = st.failed ∨ st' = st.found
  scan_none : st.scan = none → st'.scan = none

theorem Stage.Onward.of_scan_some (h : st.scan = some i)
    (h' : st' = st.failed ∨ st' = st.found) : st.Onward st' :=
  ⟨fun _ => h', fun hnone => by rw [h] at hnone; cases hnone⟩

theorem Stage.Onward.of_scan_none (h : st.scan = none) (h' : st'.scan = none) : st.Onward st' :=
  ⟨fun hne => absurd h hne, fun _ => h'⟩

theorem Stage.took_length (st : Stage) : st.took.length ≤ 2 := by
  cases st <;> simp [took]

/-- A father that still looks for a semaphore has one at most. -/
theorem Stage.took_length_scan (h : st.scan = some i) : st.took.length ≤ 1 := by
  cases st <;> first | (simp [took]; done) | cases h

theorem twoSems_father {x y : ℤ} (hne : f ≠ c) : twoSems f c x y f = some x := by
  rw [twoSems, Function.update_of_ne hne, Function.update_self]

theorem twoSems_child {x y : ℤ} : twoSems f c x y c = some y := Function.update_self ..

theorem twoSems_other {x y : ℤ} (hf : s ≠ f) (hc : s ≠ c) : twoSems f c x y s = none := by
  rw [twoSems, Function.update_of_ne hc, Function.update_of_ne hf]

theorem update_twoSems_father {x y x' : ℤ} (hne : f ≠ c) :
    Function.update (twoSems f c x y) f (some x') = twoSems f c x' y := by
  rw [twoSems, Function.update_comm hne.symm, Function.update_idem]; rfl

theorem update_twoSems_child {x y y' : ℤ} :
    Function.update (twoSems f c x y) c (some y') = twoSems f c x y' := Function.update_idem ..

theorem Stage.own_took (h : st.own s ≠ none) : s ∈ st.took := by
  have htwo : ∀ {f c x y}, twoSems f c x y s ≠ none → s ∈ [f, c] := by
    intro f c x y hs
    by_contra hmem
    simp only [List.mem_cons, List.not_mem_nil, or_false, not_or] at hmem
    exact hs (twoSems_other hmem.1 hmem.2)
  have hone : ∀ {f : Int32} {x : ℤ}, Function.update (fun _ => none) f (some x) s ≠ none →
      s = f := by
    intro f x hs
    by_contra hne
    exact hs (Function.update_of_ne hne ..)
  cases st with
  | scanFather i => exact absurd rfl h
  | scanChild f i => exact List.mem_singleton.2 (hone h)
  | fork f c => exact htwo h
  | play f c a b => exact htwo h
  | closeChild f c => exact htwo h
  | closeFather f c => exact List.mem_cons.2 (.inl (hone h))
  | done f c => exact absurd rfl h

/-! ## Rounds -/

/-- The child is not behind the father. -/
theorem Stage.Ok.ping (h : (play f c (.ping m) b).Ok) : b = .down m := by
  obtain ⟨-, h₁, h₂⟩ := h
  cases b <;> simp only [Father.downs, Father.ups, Child.downs, Child.ups] at h₁ h₂ <;>
    first | omega | (congr 1; omega)

theorem Stage.Ok.up (h : (play f c (.up m) b).Ok) : b = .down m := by
  obtain ⟨-, h₁, h₂⟩ := h
  cases b <;> simp only [Father.downs, Father.ups, Child.downs, Child.ups] at h₁ h₂ <;>
    first | omega | (congr 1; omega)

theorem Stage.Ok.pong (h : (play f c a (.pong m)).Ok) : a = .down m := by
  obtain ⟨-, h₁, h₂⟩ := h
  cases a <;> simp only [Father.downs, Father.ups, Child.downs, Child.ups] at h₁ h₂ <;>
    first | omega | (congr 1; omega)

theorem Stage.Ok.childUp (h : (play f c a (.up m)).Ok) : a = .down m := by
  obtain ⟨-, h₁, h₂⟩ := h
  cases a <;> simp only [Father.downs, Father.ups, Child.downs, Child.ups] at h₁ h₂ <;>
    first | omega | (congr 1; omega)

theorem Stage.Ok.wait (h : (play f c .wait b).Ok) : b = .exit := by
  obtain ⟨-, h₁, -⟩ := h
  cases b <;> simp only [Father.downs, Child.ups] at h₁ <;> first | rfl | omega

end

end OSLabs.User
