/-
  The measurements of cpubench and iobench (lab3).

  The kernel counts its ticks in a `uint`; the programs read them through an
  `int` into a `uint64`, and subtract.  So a cycle counts its ticks exactly
  unless the counter passes from INT_MAX to INT_MIN in it, and a cycle of no
  ticks divides by zero (`timing_iff`).

  The matrices of cpubench and the files of iobench have no effect on the
  numbers, and are left out.
-/
import Mathlib.Algebra.Group.Nat.Defs
import Mathlib.Logic.Function.Iterate
import Mathlib.Tactic.SplitIfs

namespace OSLabs.Bench

/-! ## Conversions -/

/-- An `int` as a `uint64`, by its sign. -/
def ofInt (x : Int32) : UInt64 := x.toInt64.toUInt64

/-- A `uint64` as an `int`, by its lower half. -/
def toInt (x : UInt64) : Int32 := x.toUInt32.toInt32

/-! ## The clock -/

/-- `clockintr`, which counts a tick. -/
def clockintr (ticks : UInt32) : UInt32 := ticks + 1

def sysUptime (ticks : UInt32) : UInt64 := ticks.toUInt64

/-- `uptime` of user.h, which returns the `int` that is left of the system call's
    result. -/
def uptime (ticks : UInt32) : Int32 := toInt (sysUptime ticks)

/-! ## The programs -/

/-- The variables of a cycle; the metric is none if its division is by zero. -/
structure Cycle where
  startTick : UInt64
  endTick : UInt64
  elapsedTicks : UInt64
  metric : Option UInt64
  deriving DecidableEq, Repr

def divide (a b : UInt64) : Option UInt64 := if b = 0 then none else some (a / b)

/-- A cycle that does this much work, when the tick counter is `ticks₀` at its
    start and `ticks₁` at its end. -/
def cycle (work : UInt64) (ticks₀ ticks₁ : UInt32) : Cycle :=
  let startTick := ofInt (uptime ticks₀)
  let endTick := ofInt (uptime ticks₁)
  let elapsedTicks := endTick - startTick
  ⟨startTick, endTick, elapsedTicks, divide work elapsedTicks⟩

/-- What a cycle prints, each by `%d`; its metric is also its measurement. -/
structure Line where
  pid : Int32
  metric : Int32
  startTick : Int32
  elapsedTicks : Int32
  deriving DecidableEq, Repr

/-- A cycle prints its line behind the division. -/
def Cycle.line (pid : Int32) (cy : Cycle) : Option Line :=
  cy.metric.map fun metric => ⟨pid, toInt metric, toInt cy.startTick, toInt cy.elapsedTicks⟩

def cpuMatrixSize : Int32 := 128

def cpuExperimentLen : Int32 := 256

/-- The result of `cpu_ops_cycle`. -/
def cpuOpsCycle : Int32 :=
  let kopsMatmul := cpuMatrixSize * cpuMatrixSize * cpuMatrixSize / 1000
  kopsMatmul * cpuExperimentLen

def ioExperimentLen : Int32 := 512

/-- The result of `io_ops`. -/
def ioOps : Int32 := 2 * ioExperimentLen

/-- The work is `total_cpu_kops*100`, a `uint64`. -/
def cpubenchCycle : UInt32 → UInt32 → Cycle := cycle (ofInt cpuOpsCycle * 100)

/-- The work is `total_iops * 10000`, an `int`. -/
def iobenchCycle : UInt32 → UInt32 → Cycle := cycle (ofInt (ioOps * 10000))

/-- The cycles of a program, each with the tick counter at its start and at its
    end; none if one of them divides by zero. -/
def bench (body : UInt32 → UInt32 → Cycle) (pid : Int32) :
    List (UInt32 × UInt32) → Option (List Line)
  | [] => some []
  | t :: cycles =>
    match (body t.1 t.2).line pid with
    | none => none
    | some line => (bench body pid cycles).map (line :: ·)

def cpubench : Int32 → List (UInt32 × UInt32) → Option (List Line) := bench cpubenchCycle

def iobench : Int32 → List (UInt32 × UInt32) → Option (List Line) := bench iobenchCycle

/-! ## Ticks -/

section
variable {t t₀ t₁ : UInt32} {d : ℕ} {work : UInt64} {pid : Int32}

theorem clockintr_iterate (t : UInt32) (d : ℕ) :
    (clockintr^[d] t).toNat = (t.toNat + d) % 2 ^ 32 := by
  induction d with
  | zero => exact (Nat.mod_eq_of_lt t.toNat_lt).symm
  | succ d ih =>
    rw [Function.iterate_succ_apply', clockintr, UInt32.toNat_add, ih]
    show ((t.toNat + d) % 2 ^ 32 + 1) % 2 ^ 32 = (t.toNat + (d + 1)) % 2 ^ 32
    omega

theorem uptime_eq (t : UInt32) : uptime t = t.toInt32 := by
  rw [uptime, toInt, sysUptime, UInt32.toUInt32_toUInt64]

/-- The upper half of the counter's range is read as the end of that of `uint64`. -/
theorem ofInt_uptime (t : UInt32) : (ofInt (uptime t)).toNat =
    if t.toNat < 2 ^ 31 then t.toNat else t.toNat + (2 ^ 64 - 2 ^ 32) := by
  have hlt := t.toNat_lt
  have hextend : (ofInt t.toInt32).toNat = (t.toBitVec.signExtend 64).toNat := rfl
  have hsign : t.toBitVec.msb = decide (2 ^ 31 ≤ t.toNat) := BitVec.msb_eq_decide t.toBitVec
  have hword : (t.toBitVec.setWidth 64).toNat = t.toNat := by
    rw [BitVec.toNat_setWidth]
    exact Nat.mod_eq_of_lt (by show t.toNat < 2 ^ 64; omega)
  rw [uptime_eq, hextend, BitVec.toNat_signExtend, hword, hsign]
  by_cases h : t.toNat < 2 ^ 31
  · rw [if_pos h, if_neg (by simpa using h), Nat.add_zero]
  · rw [if_neg h, if_pos (by simpa using h)]

/-- **The elapsed ticks of a cycle.**  They are too many when the counter passes
    from INT_MAX to INT_MIN. -/
theorem elapsedTicks_eq (work : UInt64) (start : UInt32) (hd : d < 2 ^ 31) :
    (cycle work start (clockintr^[d] start)).elapsedTicks.toNat =
      if start.toNat < 2 ^ 31 ∧ 2 ^ 31 ≤ start.toNat + d then d + (2 ^ 64 - 2 ^ 32) else d := by
  have hstart := start.toNat_lt
  show (ofInt (uptime (clockintr^[d] start)) - ofInt (uptime start)).toNat = _
  rw [UInt64.toNat_sub, ofInt_uptime, ofInt_uptime, clockintr_iterate]
  by_cases hlow : start.toNat < 2 ^ 31
  · by_cases hpass : 2 ^ 31 ≤ start.toNat + d
    · have hlast : ¬ (start.toNat + d) % 2 ^ 32 < 2 ^ 31 := by omega
      rw [if_pos hlow, if_neg hlast, if_pos ⟨hlow, hpass⟩]
      omega
    · have hlast : (start.toNat + d) % 2 ^ 32 < 2 ^ 31 := by omega
      rw [if_pos hlow, if_pos hlast, if_neg (not_and_of_not_right _ hpass)]
      omega
  · rw [if_neg hlow, if_neg (not_and_of_not_left _ hlow)]
    -- from the upper half, the counter stays there, or wraps around to 0
    by_cases hwrap : start.toNat + d < 2 ^ 32
    · have hlast : ¬ (start.toNat + d) % 2 ^ 32 < 2 ^ 31 := by omega
      rw [if_neg hlast]
      omega
    · have hlast : (start.toNat + d) % 2 ^ 32 < 2 ^ 31 := by omega
      rw [if_pos hlast]
      omega

/-- A cycle divides by zero if and only if it has no elapsed ticks. -/
theorem metric_eq_none (work : UInt64) (t₀ t₁ : UInt32) :
    (cycle work t₀ t₁).metric = none ↔ (cycle work t₀ t₁).elapsedTicks.toNat = 0 := by
  show divide work (cycle work t₀ t₁).elapsedTicks = none ↔ _
  generalize (cycle work t₀ t₁).elapsedTicks = elapsed
  unfold divide
  split_ifs with h
  · simp [h]
  · simpa using fun h' => h (UInt64.toNat_inj.1 h')

/-! ## Exact cycles -/

/-- The elapsed ticks of a cycle of `d` ticks are right, and so the metric is
    computed. -/
def Cycle.Exact (cy : Cycle) (d : ℕ) : Prop := cy.elapsedTicks.toNat = d ∧ cy.metric ≠ none

instance (cy : Cycle) (d : ℕ) : Decidable (cy.Exact d) := inferInstanceAs (Decidable (_ ∧ _))

theorem cycle_exact_iff (work : UInt64) (start : UInt32) (hd : d < 2 ^ 31) :
    (cycle work start (clockintr^[d] start)).Exact d ↔
      0 < d ∧ ¬ (start.toNat < 2 ^ 31 ∧ 2 ^ 31 ≤ start.toNat + d) := by
  rw [Cycle.Exact, ne_eq, metric_eq_none, elapsedTicks_eq work start hd]
  by_cases h : start.toNat < 2 ^ 31 ∧ 2 ^ 31 ≤ start.toNat + d
  · rw [if_pos h]
    constructor
    · rintro ⟨heq, -⟩
      omega
    · rintro ⟨-, hnot⟩
      exact absurd h hnot
  · rw [if_neg h]
    constructor
    · rintro ⟨-, hne⟩
      exact ⟨Nat.pos_of_ne_zero hne, h⟩
    · rintro ⟨hpos, -⟩
      exact ⟨rfl, Nat.ne_of_gt hpos⟩

/-- **When the timing of a benchmark is exact.** -/
theorem timing_iff (start : UInt32) (hd : d < 2 ^ 31) :
    ((cpubenchCycle start (clockintr^[d] start)).Exact d ↔
      0 < d ∧ ¬ (start.toNat < 2 ^ 31 ∧ 2 ^ 31 ≤ start.toNat + d)) ∧
    ((iobenchCycle start (clockintr^[d] start)).Exact d ↔
      0 < d ∧ ¬ (start.toNat < 2 ^ 31 ∧ 2 ^ 31 ≤ start.toNat + d)) :=
  ⟨cycle_exact_iff _ start hd, cycle_exact_iff _ start hd⟩

/-- The last tick before the counter wraps around to 0. -/
theorem timing_wrap : (cpubenchCycle 4294967295 0).Exact 1 ∧ (iobenchCycle 4294967295 0).Exact 1 :=
  have h := timing_iff 4294967295 (d := 1) (by decide)
  ⟨h.1.2 (by decide), h.2.2 (by decide)⟩

/-- The tick behind INT_MAX counts as 2^64 - 2^32 + 1, and a cycle of no ticks
    divides by zero. -/
theorem not_exact_intMax :
    (cpubenchCycle 2147483647 (clockintr^[1] 2147483647)).elapsedTicks = 18446744069414584321 ∧
    ¬ (cpubenchCycle 2147483647 (clockintr^[1] 2147483647)).Exact 1 ∧
    ¬ (iobenchCycle 2147483647 (clockintr^[1] 2147483647)).Exact 1 ∧
    ¬ (cpubenchCycle 0 (clockintr^[0] 0)).Exact 0 ∧ ¬ (iobenchCycle 0 (clockintr^[0] 0)).Exact 0 := by
  decide

/-! ## Whole runs -/

/-- Also where the elapsed ticks are too many, their lower half is printed, which
    is right. -/
theorem line_elapsedTicks (work : UInt64) (start : UInt32) (hd : d < 2 ^ 31) {line : Line}
    (h : (cycle work start (clockintr^[d] start)).line pid = some line) :
    line.elapsedTicks.toInt = d := by
  have helapsed := elapsedTicks_eq work start hd
  obtain ⟨metric, -, rfl⟩ := Option.map_eq_some_iff.1 h
  generalize (cycle work start (clockintr^[d] start)).elapsedTicks = x at helapsed
  have hlow : x.toUInt32.toNat = d := by
    rw [UInt64.toNat_toUInt32, helapsed]
    split_ifs <;> omega
  show x.toUInt32.toBitVec.toInt = d
  rw [BitVec.toInt_eq_toNat_of_lt (by show 2 * x.toUInt32.toNat < 2 ^ 32; omega)]
  exact congrArg Int.ofNat hlow

theorem line_eq_none (work : UInt64) (pid : Int32) (start : UInt32) (hd : d < 2 ^ 31) :
    (cycle work start (clockintr^[d] start)).line pid = none ↔ d = 0 := by
  rw [Cycle.line, Option.map_eq_none_iff, metric_eq_none, elapsedTicks_eq work start hd]
  by_cases h : start.toNat < 2 ^ 31 ∧ 2 ^ 31 ≤ start.toNat + d
  · rw [if_pos h]
    omega
  · rw [if_neg h]

/-- A benchmark divides by zero if and only if one of its cycles has no ticks. -/
theorem bench_eq_none_iff (work : UInt64) (pid : Int32) {cycles : List (UInt32 × ℕ)}
    (hd : ∀ c ∈ cycles, c.2 < 2 ^ 31) :
    bench (cycle work) pid (cycles.map fun c => (c.1, clockintr^[c.2] c.1)) = none ↔
      ∃ c ∈ cycles, c.2 = 0 := by
  induction cycles with
  | nil => simp [bench]
  | cons c cycles ih =>
    have hzero := line_eq_none work pid c.1 (hd c (.head _))
    have hrest := ih fun c' hc' => hd c' (.tail _ hc')
    simp only [List.map_cons, bench, List.mem_cons, exists_eq_or_imp, ← hrest]
    cases hline : (cycle work c.1 (clockintr^[c.2] c.1)).line pid with
    | none => simp [hzero.1 hline]
    | some line =>
      have hne : c.2 ≠ 0 := fun h => by rw [hzero.2 h] at hline; cases hline
      simp [hne]

/-- **When the benchmarks run to their end.** -/
theorem benchmarks_isSome_iff (pid : Int32) {cycles : List (UInt32 × ℕ)}
    (hd : ∀ c ∈ cycles, c.2 < 2 ^ 31) :
    ((cpubench pid (cycles.map fun c => (c.1, clockintr^[c.2] c.1))).isSome ↔
      ∀ c ∈ cycles, 0 < c.2) ∧
    ((iobench pid (cycles.map fun c => (c.1, clockintr^[c.2] c.1))).isSome ↔
      ∀ c ∈ cycles, 0 < c.2) := by
  have hpos : (∀ c ∈ cycles, 0 < c.2) ↔ ¬ ∃ c ∈ cycles, c.2 = 0 := by
    simp only [Nat.pos_iff_ne_zero, not_exists, not_and, ne_eq]
  have hbench := fun work => bench_eq_none_iff work pid hd
  simp only [hpos, ← Option.not_isNone, Option.isNone_iff_eq_none, Bool.not_eq_true',
    ← Bool.not_eq_true]
  exact ⟨not_congr (hbench _), not_congr (hbench _)⟩

end

end OSLabs.Bench
