/-
  Sums over finitely many threads, of which one moves on.
-/
import Mathlib.Algebra.BigOperators.Ring.Finset
import Mathlib.Algebra.Order.BigOperators.Group.Finset

namespace Tally

variable {T : Type} [Fintype T] [DecidableEq T]

/-- Only the summand of one thread changes. -/
theorem sum_move (f f' : T → ℕ) (t : T) (h : ∀ t' ≠ t, f' t' = f t') :
    ∑ t', f' t' + f t = ∑ t', f t' + f' t := by
  have hrest : ∑ t' ∈ Finset.univ.erase t, f' t' = ∑ t' ∈ Finset.univ.erase t, f t' :=
    Finset.sum_congr rfl fun t' ht' => h t' (Finset.ne_of_mem_erase ht')
  rw [← Finset.add_sum_erase Finset.univ f' (Finset.mem_univ t),
    ← Finset.add_sum_erase Finset.univ f (Finset.mem_univ t), hrest]
  omega

omit [DecidableEq T] in
/-- A thread adds no more than all do. -/
theorem le_sum (f : T → ℕ) (t : T) : f t ≤ ∑ t', f t' :=
  Finset.single_le_sum (fun _ _ => Nat.zero_le _) (Finset.mem_univ t)

omit [DecidableEq T] in
theorem sum_le_mul {f g : T → ℕ} {c : ℕ} (h : ∀ t, f t ≤ c * g t) : ∑ t, f t ≤ c * ∑ t, g t := by
  rw [Finset.mul_sum]
  exact Finset.sum_le_sum fun t _ => h t

end Tally
