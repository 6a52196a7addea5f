/-
  Descriptor tables of processes: what each descriptor refers to, with the
  lowest free descriptor given out first.

  Only finitely many descriptors are open, so there is always a lowest free
  one (`lowest_eq_iff`).  Descriptors given to `close` and `dup2` are integers,
  as a program may pass any.
-/
import Mathlib.Data.List.Basic
import Mathlib.Logic.Function.Basic
import Mathlib.Data.Int.Cast.Basic
import Mathlib.Order.MinMax

namespace Descriptors

/-- A descriptor table; the descriptors from `bound` on are free. -/
structure Table (F : Type) where
  get : ℕ → Option F
  bound : ℕ
  free : ∀ fd, bound ≤ fd → get fd = none

variable {F : Type}

namespace Table
variable (t : Table F)

/-- The lowest free descriptor. -/
def lowest : ℕ := ((List.range t.bound).find? fun fd => (t.get fd).isNone).getD t.bound

/-- Let a descriptor refer to something else, or to nothing. -/
def set (fd : ℕ) (v : Option F) : Table F where
  get := Function.update t.get fd v
  bound := max t.bound (fd + 1)
  free x hx := by
    have hne : x ≠ fd := by omega
    rw [Function.update_of_ne hne, t.free x (by omega)]

/-- Open a file at the lowest free descriptor. -/
def alloc (f : F) : ℕ × Table F := (t.lowest, t.set t.lowest (some f))

/-- Open two files, one after the other. -/
def allocPair (f g : F) : (ℕ × ℕ) × Table F :=
  let (a, t) := t.alloc f
  let (b, t) := t.alloc g
  ((a, b), t)

/-- Close a descriptor, if there is such a descriptor. -/
def close (fd : ℤ) : Table F :=
  match fd with
  | .ofNat n => t.set n none
  | .negSucc _ => t

/-- What an integer refers to. -/
def getInt (fd : ℤ) : Option F :=
  match fd with
  | .ofNat n => t.get n
  | .negSucc _ => none

/-- Let `new` refer to what `old` refers to; nothing happens if that is
    nothing. -/
def dup2 (old : ℤ) (new : ℕ) : Table F :=
  match t.getInt old with
  | some f => t.set new (some f)
  | none => t

/-! ## Lookup -/

variable {t}

theorem get_set (fd : ℕ) (v : Option F) (x : ℕ) :
    (t.set fd v).get x = if x = fd then v else t.get x := Function.update_apply ..

theorem get_close (fd : ℤ) (x : ℕ) :
    (t.close fd).get x = if (x : ℤ) = fd then none else t.get x := by
  cases fd with
  | ofNat n => simp only [close, get_set, Int.ofNat_eq_natCast, Int.natCast_inj]
  | negSucc n => simp [close, show (x : ℤ) ≠ Int.negSucc n by omega]

@[simp] theorem getInt_natCast (n : ℕ) : t.getInt (n : ℤ) = t.get n := rfl

theorem dup2_some {old : ℤ} {f : F} (h : t.getInt old = some f) (new : ℕ) :
    t.dup2 old new = t.set new (some f) := by simp [dup2, h]

theorem getInt_eq_some {fd : ℤ} {f : F} :
    t.getInt fd = some f ↔ ∃ n : ℕ, fd = n ∧ t.get n = some f := by
  cases fd with
  | ofNat n =>
    constructor
    · intro h; exact ⟨n, rfl, h⟩
    · rintro ⟨m, hm, h⟩
      obtain rfl := Int.ofNat.inj hm
      exact h
  | negSucc n =>
    constructor
    · intro h; cases h
    · rintro ⟨m, hm, -⟩; cases hm

/-! ## The lowest free descriptor -/

theorem lowest_spec : t.get t.lowest = none ∧ ∀ x < t.lowest, t.get x ≠ none := by
  unfold lowest
  cases h : (List.range t.bound).find? fun fd => (t.get fd).isNone with
  | none =>
    rw [List.find?_range_eq_none] at h
    exact ⟨t.free _ le_rfl, fun x hx => by simpa [← Option.isSome_iff_ne_none] using h x hx⟩
  | some fd =>
    rw [List.find?_range_eq_some] at h
    exact ⟨by simpa using h.1,
      fun x hx => by simpa [← Option.isSome_iff_ne_none] using h.2.2 x hx⟩

/-- **The lowest free descriptor is free, and all below it are open.** -/
theorem lowest_eq_iff {fd : ℕ} :
    t.lowest = fd ↔ t.get fd = none ∧ ∀ x < fd, t.get x ≠ none := by
  constructor
  · rintro rfl; exact lowest_spec
  · rintro ⟨h, hlt⟩
    rcases Nat.lt_trichotomy t.lowest fd with hl | hl | hl
    · exact absurd lowest_spec.1 (hlt _ hl)
    · exact hl
    · exact absurd h (lowest_spec.2 _ hl)

/-- The two lowest free descriptors. -/
def LowestPair (t : Table F) (a b : ℕ) : Prop :=
  a < b ∧ t.get a = none ∧ t.get b = none ∧ ∀ x < b, x ≠ a → t.get x ≠ none

theorem allocPair_eq (f g : F) : t.allocPair f g =
    ((t.lowest, (t.set t.lowest (some f)).lowest),
      (t.set t.lowest (some f)).set (t.set t.lowest (some f)).lowest (some g)) := rfl

theorem allocPair_spec (f g : F) : t.LowestPair (t.allocPair f g).1.1 (t.allocPair f g).1.2 := by
  obtain ⟨ha, hlt⟩ := lowest_spec (t := t)
  obtain ⟨hb, hlt'⟩ := lowest_spec (t := t.set t.lowest (some f))
  set b := (t.set t.lowest (some f)).lowest with hbdef
  rw [get_set] at hb
  have hab : b ≠ t.lowest := by
    intro h; rw [if_pos h] at hb; exact absurd hb (by simp)
  rw [if_neg hab] at hb
  have hle : t.lowest ≤ b := by
    by_contra h
    exact hlt b (by omega) hb
  refine ⟨by simp only [allocPair, alloc]; omega, ha, hb, fun x hx hxa => ?_⟩
  have := hlt' x hx
  rwa [get_set, if_neg (show x ≠ t.lowest from hxa)] at this

theorem LowestPair.eq {a b a' b' : ℕ} (h : t.LowestPair a b) (h' : t.LowestPair a' b') :
    a = a' ∧ b = b' := by
  obtain ⟨hab, ha, hb, hlt⟩ := h
  obtain ⟨hab', ha', hb', hlt'⟩ := h'
  have haa : a = a' := by
    rcases Nat.lt_trichotomy a a' with hl | hl | hl
    · exact absurd ha (hlt' a (by omega) (by omega))
    · exact hl
    · exact absurd ha' (hlt a' (by omega) (by omega))
  refine ⟨haa, ?_⟩
  rcases Nat.lt_trichotomy b b' with hl | hl | hl
  · exact absurd hb (hlt' b hl (by omega))
  · exact hl
  · exact absurd hb' (hlt b' hl (by omega))

theorem get_allocPair (f g : F) (x : ℕ) :
    (t.allocPair f g).2.get x =
      if x = (t.allocPair f g).1.1 then some f
      else if x = (t.allocPair f g).1.2 then some g else t.get x := by
  have hlt := (allocPair_spec (t := t) f g).1
  rw [allocPair_eq] at hlt ⊢
  simp only [get_set]
  by_cases h₁ : x = t.lowest
  · have h₂ : x ≠ (t.set t.lowest (some f)).lowest := by
      rw [h₁]; exact Nat.ne_of_lt hlt
    rw [if_neg h₂, if_pos h₁, if_pos h₁]
  · rw [if_neg h₁, if_neg h₁]

/-! ## Names of files -/

/-- `t'` refers to the same files as `t`, under other names. -/
def Renames {G : Type} (ρ : F → G) (t : Table F) (t' : Table G) : Prop :=
  ∀ x, t'.get x = (t.get x).map ρ

namespace Renames
variable {G : Type} {ρ : F → G} {t : Table F} {t' : Table G}

theorem getInt (h : Renames ρ t t') (fd : ℤ) : t'.getInt fd = (t.getInt fd).map ρ := by
  cases fd with
  | ofNat n => exact h n
  | negSucc n => rfl

theorem set (h : Renames ρ t t') (fd : ℕ) (v : Option F) :
    Renames ρ (t.set fd v) (t'.set fd (v.map ρ)) := by
  intro x
  rw [get_set, get_set, h x]
  split_ifs <;> rfl

theorem close (h : Renames ρ t t') (fd : ℤ) : Renames ρ (t.close fd) (t'.close fd) := by
  cases fd with
  | ofNat n => exact h.set n none
  | negSucc n => exact h

theorem dup2 (h : Renames ρ t t') (old : ℤ) (new : ℕ) :
    Renames ρ (t.dup2 old new) (t'.dup2 old new) := by
  unfold Table.dup2
  rw [h.getInt]
  cases t.getInt old with
  | none => exact h
  | some f => exact h.set new (some f)

/-- **Descriptors are given out whatever the files are.** -/
theorem lowest (h : Renames ρ t t') : t'.lowest = t.lowest := by
  obtain ⟨hfree, hopen⟩ := lowest_spec (t := t)
  refine lowest_eq_iff.2 ⟨by rw [h, hfree]; rfl, fun x hx hnone => hopen x hx ?_⟩
  rwa [h, Option.map_eq_none_iff] at hnone

theorem alloc (h : Renames ρ t t') (f : F) :
    (t'.alloc (ρ f)).1 = (t.alloc f).1 ∧ Renames ρ (t.alloc f).2 (t'.alloc (ρ f)).2 := by
  simp only [Table.alloc, h.lowest, true_and]
  exact h.set _ (some f)

theorem allocPair (h : Renames ρ t t') (f g : F) :
    (t'.allocPair (ρ f) (ρ g)).1 = (t.allocPair f g).1 ∧
      Renames ρ (t.allocPair f g).2 (t'.allocPair (ρ f) (ρ g)).2 := by
  obtain ⟨hf, hafter⟩ := h.alloc f
  obtain ⟨hg, hend⟩ := hafter.alloc g
  exact ⟨Prod.ext hf hg, hend⟩

end Renames

end Table

end Descriptors
