/-
  Redo logs on a disk.

  A disk maps addresses to blocks.  A log has the slots `slot 0`, `slot 1`, ...,
  and `install` copies the blocks from there to their homes, one after the other.
  If each slot holds what its home is to hold (`Logged`), then it does not matter
  which of the homes already do, nor how often the installation was started before:
  `install_eq` and `Logged.install_take`.

  `replay` are writes made one after the other; it says what the disk is to hold.
-/
import Mathlib.Data.List.Basic
import Mathlib.Logic.Function.Basic

namespace RedoLog

variable {A V : Type} [DecidableEq A]

/-! ## Writes -/

/-- The disk behind the writes. -/
def replay (d : A → V) (ws : List (A × V)) : A → V :=
  ws.foldl (fun d w => Function.update d w.1 w.2) d

@[simp] theorem replay_nil (d : A → V) : replay d [] = d := rfl

theorem replay_append (d : A → V) (ws vs : List (A × V)) :
    replay d (ws ++ vs) = replay (replay d ws) vs := List.foldl_append

theorem replay_concat (d : A → V) (ws : List (A × V)) (a : A) (v : V) :
    replay d (ws ++ [(a, v)]) = Function.update (replay d ws) a v := replay_append d ws _

/-- A block that is not written stays as it is. -/
theorem replay_of_notMem {ws : List (A × V)} {a : A} (h : ∀ w ∈ ws, w.1 ≠ a) (d : A → V) :
    replay d ws a = d a := by
  induction ws generalizing d with
  | nil => rfl
  | cons w ws ih =>
    rw [replay, List.foldl_cons]
    have hne : a ≠ w.1 := fun he => h w List.mem_cons_self he.symm
    exact (ih (fun w' hw' => h w' (List.mem_cons_of_mem _ hw')) _).trans
      (Function.update_of_ne hne ..)

/-! ## Installation -/

variable (slot : ℕ → A)

/-- The blocks from slot `i` on are copied to the homes. -/
def install : List A → ℕ → (A → V) → A → V
  | [], _, d => d
  | b :: bs, i, d => install bs (i + 1) (Function.update d b (d (slot i)))

/-- The slots below `n` are the home of no block. -/
def Apart (homes : List A) (n : ℕ) : Prop := ∀ b ∈ homes, ∀ j < n, b ≠ slot j

/-- Each slot holds the block that its home is to hold. -/
def Logged (homes : List A) (s d : A → V) : Prop :=
  ∀ j b, homes[j]? = some b → d (slot j) = s b

variable {slot} {homes : List A} {n i : ℕ} {s d d' : A → V} {a : A}

theorem install_of_notMem (h : a ∉ homes) : install slot homes i d a = d a := by
  induction homes generalizing i d with
  | nil => rfl
  | cons b bs ih =>
    obtain ⟨hne, hbs⟩ := List.ne_and_not_mem_of_not_mem_cons h
    exact (ih hbs).trans (Function.update_of_ne hne ..)

/-- The slots stay as they are. -/
theorem install_slot (h : Apart slot homes n) {j : ℕ} (hj : j < n) :
    install slot homes i d (slot j) = d (slot j) :=
  install_of_notMem fun hm => h _ hm j hj rfl

omit [DecidableEq A] in
/-- Only the slots matter. -/
theorem Logged.congr (h : Logged slot homes s d)
    (hd : ∀ j < homes.length, d' (slot j) = d (slot j)) : Logged slot homes s d' :=
  fun j b hb => (hd j (List.getElem?_eq_some_iff.1 hb).1).trans (h j b hb)

/-- A home that is installed holds its block. -/
theorem install_of_mem (hapart : Apart slot homes n) (hn : i + homes.length ≤ n)
    (h : ∀ j b, homes[j]? = some b → d (slot (i + j)) = s b) (ha : a ∈ homes) :
    install slot homes i d a = s a := by
  induction homes generalizing i d with
  | nil => exact absurd ha List.not_mem_nil
  | cons b bs ih =>
    have hbs : Apart slot bs n := fun c hc => hapart c (List.mem_cons_of_mem _ hc)
    have hne : ∀ j < n, slot j ≠ b := fun j hj he => hapart b List.mem_cons_self j hj he.symm
    rw [List.length_cons] at hn
    have hi : d (slot i) = s b := h 0 b rfl
    rw [install, hi]
    by_cases hmem : a ∈ bs
    · refine ih hbs (by omega) (fun j c hc => ?_) hmem
      have hj := (List.getElem?_eq_some_iff.1 hc).1
      rw [Function.update_of_ne (hne _ (by omega)), Nat.add_assoc, Nat.add_comm 1]
      exact h (j + 1) c hc
    · obtain rfl : a = b := (List.mem_cons.1 ha).resolve_right hmem
      rw [install_of_notMem hmem, Function.update_self]

/-- **The installation leaves what the disk is to hold**, if the homes of the
    blocks that are not logged hold it. -/
theorem install_eq (h : Logged slot homes s d) (hapart : Apart slot homes n)
    (hn : homes.length ≤ n) (ha : a ∈ homes ∨ d a = s a) :
    install slot homes 0 d a = s a := by
  by_cases hmem : a ∈ homes
  · exact install_of_mem hapart (by omega) (fun j b hb => by rw [Nat.zero_add]; exact h j b hb) hmem
  · rw [install_of_notMem hmem]; exact ha.resolve_left hmem

/-- An installation that stops early leaves the log as it is. -/
theorem Logged.install_take (h : Logged slot homes s d) (hapart : Apart slot homes n)
    (hn : homes.length ≤ n) (k : ℕ) :
    Logged slot homes s (install slot (homes.take k) 0 d) := by
  refine h.congr fun j hj => install_slot (n := n) (fun b hb => ?_) (by omega)
  exact hapart b (List.mem_of_mem_take hb)

theorem install_take_notMem (h : a ∉ homes) (k : ℕ) :
    install slot (homes.take k) i d a = d a :=
  install_of_notMem fun hm => h (List.mem_of_mem_take hm)

end RedoLog
