/-
  Ring buffers with free-running indices.

  The next byte is read at an index `r` and written at an index `w`; both count
  up, wrap around as machine words, and are taken modulo the size of the buffer
  only when a cell is accessed.  `contents data r c` are the `c` items from `r`
  on.  Since the size divides 2 ^ 32, it does not matter when `r` wraps around.
-/
import Mathlib.Algebra.Group.Nat.Defs
import Mathlib.Data.List.Basic
import Mathlib.Data.Nat.ModEq
import Mathlib.Data.Fin.Basic

namespace Ring

variable {α : Type} {N : ℕ} [NeZero N]

/-- The cell of an index. -/
def cell (N : ℕ) [NeZero N] (r : ℕ) : Fin N := Fin.ofNat N r

/-- The items from `r` on. -/
def contents (data : Fin N → α) (r c : ℕ) : List α :=
  (List.range c).map fun j => data (cell N (r + j))

@[simp] theorem contents_length (data : Fin N → α) (r c : ℕ) : (contents data r c).length = c := by
  simp [contents]

@[simp] theorem contents_zero (data : Fin N → α) (r : ℕ) : contents data r 0 = [] := rfl

theorem cell_congr {r r' : ℕ} (h : r % N = r' % N) : cell N r = cell N r' := Fin.ext h

theorem contents_congr (data : Fin N → α) {r r' : ℕ} (h : r % N = r' % N) (c : ℕ) :
    contents data r c = contents data r' c := by
  refine List.map_congr_left fun j _ => ?_
  have hmod : (r + j) % N = (r' + j) % N := by rw [Nat.add_mod, h, ← Nat.add_mod]
  rw [cell_congr hmod]

/-- Two items that are less than the size apart are in different cells. -/
theorem cell_ne {r j c : ℕ} (hj : j < c) (hc : c < N) : cell N (r + j) ≠ cell N (r + c) := by
  intro heq
  have hmod : (r + c) ≡ (r + j) [MOD N] := (congrArg Fin.val heq).symm
  have hcj : c ≡ j [MOD N] := Nat.ModEq.add_left_cancel' r hmod
  have := hcj.eq_of_lt_of_lt hc (by omega)
  omega

/-- The item at the first index is read. -/
theorem contents_succ (data : Fin N → α) (r c : ℕ) :
    contents data r (c + 1) = data (cell N r) :: contents data (r + 1) c := by
  unfold contents
  rw [List.range_succ_eq_map, List.map_cons, List.map_map]
  congr 1
  refine List.map_congr_left fun j _ => ?_
  rw [Function.comp_apply, Nat.succ_eq_add_one, Nat.add_assoc, Nat.add_comm 1 j]

/-- An item is written behind the last one, if there is a free cell. -/
theorem contents_update (data : Fin N → α) (r : ℕ) {c : ℕ} (hc : c < N) (x : α) :
    contents (Function.update data (cell N (r + c)) x) r (c + 1) = contents data r c ++ [x] := by
  unfold contents
  rw [List.range_succ, List.map_append, List.map_singleton, Function.update_self]
  congr 1
  refine List.map_congr_left fun j hj => ?_
  rw [Function.update_of_ne (cell_ne (List.mem_range.1 hj) hc)]

/-! ## Indices that are 32 bits wide -/

section
variable (r w : UInt32)

/-- How many items there are. -/
def count : ℕ := (w - r).toNat

theorem count_eq_zero : count r w = 0 ↔ r = w := by
  unfold count
  constructor
  · intro h
    apply UInt32.toNat.inj
    have := r.toNat_lt; have := w.toNat_lt
    rw [UInt32.toNat_sub] at h
    omega
  · rintro rfl
    simp

/-- The indices are `n` apart. -/
theorem eq_add_iff {n : UInt32} : w = r + n ↔ count r w = n.toNat := by
  unfold count
  constructor
  · rintro rfl
    rw [UInt32.add_comm, UInt32.add_sub_cancel]
  · intro h
    rw [← UInt32.toNat.inj h, UInt32.add_comm, UInt32.sub_add_cancel]

theorem count_write (h : count r w < 2 ^ 32 - 1) : count r (w + 1) = count r w + 1 := by
  unfold count at *
  have := r.toNat_lt; have := w.toNat_lt
  rw [UInt32.toNat_sub] at h
  simp only [UInt32.toNat_sub, UInt32.toNat_add, UInt32.toNat_one]
  omega

theorem count_read (h : count r w ≠ 0) : count (r + 1) w + 1 = count r w := by
  unfold count at *
  have := r.toNat_lt; have := w.toNat_lt
  rw [UInt32.toNat_sub] at h
  simp only [UInt32.toNat_sub, UInt32.toNat_add, UInt32.toNat_one]
  omega

/-- The item behind the last one is written at `w`. -/
theorem cell_write (hN : N ∣ 2 ^ 32) : cell N (r.toNat + count r w) = cell N w.toNat := by
  apply cell_congr
  have hw : (r.toNat + count r w) % 2 ^ 32 = w.toNat % 2 ^ 32 := by
    unfold count
    have := r.toNat_lt; have := w.toNat_lt
    rw [UInt32.toNat_sub]
    omega
  rw [← Nat.mod_mod_of_dvd _ hN, hw, Nat.mod_mod_of_dvd _ hN]

/-- The items between the indices. -/
def items (data : Fin N → α) : List α := contents data r.toNat (count r w)

@[simp] theorem items_length (data : Fin N → α) : (items r w data).length = count r w :=
  contents_length ..

/-- **An item is put behind the others.** -/
theorem items_write (hN : N ∣ 2 ^ 32) (hN₁ : N < 2 ^ 32) (data : Fin N → α) (x : α)
    (h : count r w < N) :
    items r (w + 1) (Function.update data (cell N w.toNat) x) = items r w data ++ [x] := by
  unfold items
  rw [count_write r w (by omega), ← cell_write r w hN, contents_update data _ h]

/-- **The first item is taken.** -/
theorem items_read (hN : N ∣ 2 ^ 32) (data : Fin N → α) (h : count r w ≠ 0) :
    items r w data = data (cell N r.toNat) :: items (r + 1) w data := by
  unfold items
  rw [← count_read r w h, contents_succ]
  congr 1
  apply contents_congr
  rw [UInt32.toNat_add, UInt32.toNat_one, Nat.mod_mod_of_dvd _ hN]

end

end Ring
