/-
  get_empty_sem (lab2, pingpong.c): the first slot of the table that a sem_open
  succeeds on.
-/
import OSLabs.User.Program

namespace OSLabs.User

open OSLabs.Kernel

/-- A function that makes system calls, up to its return. -/
inductive Calls where
  | ret (r : Int32)
  | call (c : Call) (k : Int32 → Calls)

/-- The program that calls the function, and goes on with its result. -/
def Calls.seq (k : Int32 → Prog) : Calls → Prog
  | .ret r => k r
  | .call c x => .call c fun r => (x r).seq k

/-- The local variables of `get_empty_sem`, and its argument. -/
structure Scan where
  value : Int32
  res : Int32
  tmp : Int32
  deriving DecidableEq, Repr

namespace Scan

def start (value : Int32) : Scan := ⟨value, 0, 0⟩

/-- The condition of the loop. -/
def More (sc : Scan) : Prop := sc.res < maxSem ∧ sc.tmp = 0

instance (sc : Scan) : Decidable sc.More := inferInstanceAs (Decidable (_ ∧ _))

/-- The call that the loop makes. -/
def call (sc : Scan) : Call := .semOpen sc.res sc.value

/-- The loop goes on with what the call returned. -/
def next (sc : Scan) (tmp : Int32) : Scan := { sc with tmp := tmp, res := sc.res + 1 }

/-- What `get_empty_sem` returns behind its loop. -/
def result (sc : Scan) : Int32 :=
  if sc.res = maxSem ∧ sc.tmp = 0 then -1 else sc.res - 1

/-- The loop at the slot `i`. -/
def atSlot (value : Int32) (i : ℕ) : Scan := ⟨value, Int32.ofNat i, 0⟩

end Scan

/-- The loop of `get_empty_sem`, with at most this many iterations left. -/
def getEmptySemLoop : ℕ → Scan → Calls
  | 0, sc => .ret sc.result
  | m + 1, sc =>
    if sc.More then .call sc.call fun tmp => getEmptySemLoop m (sc.next tmp) else .ret sc.result

def getEmptySem (value : Int32) : Calls := getEmptySemLoop 512 (Scan.start value)

/-- What is left of `get_empty_sem` at the slot `i`. -/
def getEmptySemFrom (value : Int32) (i : ℕ) : Calls :=
  getEmptySemLoop (512 - i) (Scan.atSlot value i)

variable {value : Int32} {i : ℕ}

theorem toInt_ofNat (hi : i ≤ 512) : (Int32.ofNat i).toInt = i :=
  Int32.toInt_ofNat_of_lt (by omega)

theorem ofNat_inRange (hi : i < 512) : InRange (Int32.ofNat i) := by
  refine ⟨Int32.le_iff_toInt_le.2 ?_, Int32.lt_iff_toInt_lt.2 ?_⟩
  · rw [toInt_ofNat hi.le]; exact Int.natCast_nonneg i
  · rw [toInt_ofNat hi.le]
    show (i : ℤ) < 512
    omega

theorem ofNat_succ (i : ℕ) : Int32.ofNat (i + 1) = Int32.ofNat i + 1 := Int32.ofNat_add ..

theorem Scan.more_atSlot (value : Int32) (hi : i < 512) : (Scan.atSlot value i).More :=
  ⟨(ofNat_inRange hi).2, rfl⟩

theorem Scan.next_zero (value : Int32) (i : ℕ) :
    (Scan.atSlot value i).next 0 = Scan.atSlot value (i + 1) := by
  simp only [Scan.atSlot, Scan.next, ofNat_succ]

/-- A sem_open that succeeded ends the loop, with its slot. -/
theorem Scan.result_next {tmp : Int32} (sc : Scan) (h : tmp ≠ 0) :
    ¬ (sc.next tmp).More ∧ (sc.next tmp).result = sc.res := by
  refine ⟨fun hm => h hm.2, ?_⟩
  rw [Scan.result, if_neg fun hr => h hr.2]
  simp [Scan.next]

theorem getEmptySemLoop_end (m : ℕ) {sc : Scan} (h : ¬ sc.More) :
    getEmptySemLoop m sc = .ret sc.result := by
  cases m with
  | zero => rfl
  | succ m => exact if_neg h

theorem getEmptySem_eq (value : Int32) : getEmptySem value = getEmptySemFrom value 0 := rfl

/-- `get_empty_sem` makes a sem_open on a slot, and goes on to the next one if that
    fails. -/
theorem getEmptySemFrom_call (hi : i < 512) :
    getEmptySemFrom value i = .call (.semOpen (Int32.ofNat i) value) fun tmp =>
      if tmp = 0 then getEmptySemFrom value (i + 1) else .ret (Int32.ofNat i) := by
  rw [getEmptySemFrom, show 512 - i = 512 - (i + 1) + 1 by omega, getEmptySemLoop,
    if_pos (Scan.more_atSlot value hi)]
  congr 1
  funext tmp
  split_ifs with htmp
  · rw [htmp, Scan.next_zero]; rfl
  · obtain ⟨hmore, hresult⟩ := Scan.result_next (Scan.atSlot value i) htmp
    rw [getEmptySemLoop_end _ hmore, hresult]
    rfl

/-- Behind the last slot, it returns -1. -/
theorem getEmptySemFrom_end (value : Int32) : getEmptySemFrom value 512 = .ret (-1) := rfl

end OSLabs.User
