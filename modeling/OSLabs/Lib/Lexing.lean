/-
  Splitting a text into tokens: maximal words, one-character symbols, and
  blanks, which only separate.

  * `lex A cs` are the tokens of `cs`, for an alphabet `A` of word characters
    and blanks; every other character is a symbol.
  * `Spells A ts cs`: the text `cs` spells the tokens `ts`, with any blanks
    between them (`Spells.lex_eq`: such a text lexes to `ts`).
-/
import Mathlib.Data.List.Basic
import Mathlib.Data.List.TakeDrop

namespace Lexing

/-- The character classes of a text. -/
structure Alphabet (α : Type) where
  word : α → Bool
  blank : α → Bool
  disjoint : ∀ c, word c = true → blank c = false

/-- A token: a maximal word, or a symbol. -/
inductive Token (α : Type) where
  | word (w : List α)
  | sym (c : α)
  deriving DecidableEq, Repr

variable {α : Type}

/-- End the word read so far, if there is one. -/
def flush : List α → List (Token α) → List (Token α)
  | [], ts => ts
  | c :: cs, ts => .word (c :: cs) :: ts

@[simp] theorem flush_nil (ts : List (Token α)) : flush [] ts = ts := rfl

theorem flush_ne {w : List α} (hw : w ≠ []) (ts : List (Token α)) : flush w ts = .word w :: ts := by
  cases w with
  | nil => exact absurd rfl hw
  | cons => rfl

theorem flush_append (w : List α) (ts us : List (Token α)) :
    flush w (ts ++ us) = flush w ts ++ us := by
  cases w <;> rfl

section
variable (A : Alphabet α)

/-- The tokens of a text, `acc` being the word read so far. -/
def lexFrom : List α → List α → List (Token α)
  | acc, [] => flush acc []
  | acc, c :: cs =>
    if A.word c then lexFrom (acc ++ [c]) cs
    else flush acc (if A.blank c then lexFrom [] cs else .sym c :: lexFrom [] cs)

/-- The tokens of a text. -/
def lex (cs : List α) : List (Token α) := lexFrom A [] cs

/-- The text does not go on with a word character. -/
def Stops (cs : List α) : Prop := ∀ c ∈ cs.head?, A.word c = false

/-- The text `cs` spells the tokens, with any blanks around them. -/
inductive Spells : List (Token α) → List α → Prop
  | nil {g} : (∀ c ∈ g, A.blank c = true) → Spells [] g
  | sym {g c ts cs} : (∀ c ∈ g, A.blank c = true) → A.word c = false → A.blank c = false →
      Spells ts cs → Spells (.sym c :: ts) (g ++ c :: cs)
  | word {g w ts cs} : (∀ c ∈ g, A.blank c = true) → w ≠ [] → (∀ c ∈ w, A.word c = true) →
      Stops A cs → Spells ts cs → Spells (.word w :: ts) (g ++ (w ++ cs))

variable {A}

theorem Alphabet.not_word {c : α} (hc : A.blank c = true) : A.word c = false := by
  cases hw : A.word c with
  | false => rfl
  | true => rw [A.disjoint c hw] at hc; exact absurd hc (by simp)

theorem Stops.nil : Stops A [] := by simp [Stops]

theorem Stops.cons {c : α} {cs : List α} (hc : A.word c = false) : Stops A (c :: cs) := by
  simpa [Stops] using hc

/-! ## One token at a time -/

@[simp] theorem lex_nil : lex A [] = [] := rfl

theorem lexFrom_stops {cs : List α} (h : Stops A cs) (acc : List α) :
    lexFrom A acc cs = flush acc (lex A cs) := by
  cases cs with
  | nil => rfl
  | cons c cs =>
    have hc : A.word c = false := h c (by simp)
    simp [lex, lexFrom, hc]

theorem lexFrom_append_word {w : List α} (hw : ∀ c ∈ w, A.word c = true) (acc cs : List α) :
    lexFrom A acc (w ++ cs) = lexFrom A (acc ++ w) cs := by
  induction w generalizing acc with
  | nil => simp
  | cons c w ih =>
    rw [List.cons_append, lexFrom, if_pos (hw c (by simp)),
      ih (fun d hd => hw d (by simp [hd]))]
    simp

theorem lex_blank {c : α} (hc : A.blank c = true) (cs : List α) : lex A (c :: cs) = lex A cs := by
  simp [lex, lexFrom, A.not_word hc, hc]

theorem lex_sym {c : α} (hw : A.word c = false) (hb : A.blank c = false) (cs : List α) :
    lex A (c :: cs) = .sym c :: lex A cs := by
  simp [lex, lexFrom, hw, hb]

theorem lex_word {w cs : List α} (hne : w ≠ []) (hw : ∀ c ∈ w, A.word c = true) (h : Stops A cs) :
    lex A (w ++ cs) = .word w :: lex A cs := by
  rw [lex, lexFrom_append_word hw, List.nil_append, lexFrom_stops h, flush_ne hne]

theorem lex_blanks {g : List α} (hg : ∀ c ∈ g, A.blank c = true) (cs : List α) :
    lex A (g ++ cs) = lex A cs := by
  induction g with
  | nil => rfl
  | cons c g ih =>
    rw [List.cons_append, lex_blank (hg c (by simp)), ih fun d hd => hg d (by simp [hd])]

theorem lex_dropWhile_blank (cs : List α) : lex A (cs.dropWhile A.blank) = lex A cs := by
  induction cs with
  | nil => rfl
  | cons c cs ih =>
    by_cases hc : A.blank c = true
    · rw [List.dropWhile_cons_of_pos hc, ih, lex_blank hc]
    · rw [List.dropWhile_cons_of_neg hc]

/-- **A text can be cut wherever no word is cut.** -/
theorem lex_append {r : List α} (h : Stops A r) (l : List α) :
    lex A (l ++ r) = lex A l ++ lex A r := by
  suffices ∀ acc, lexFrom A acc (l ++ r) = lexFrom A acc l ++ lex A r from this []
  induction l with
  | nil => intro acc; rw [List.nil_append, lexFrom_stops h, lexFrom, ← flush_append, List.nil_append]
  | cons c l ih =>
    intro acc
    rw [List.cons_append, lexFrom, lexFrom]
    split_ifs with hw hb
    · exact ih _
    · rw [ih, flush_append]
    · rw [ih, ← List.cons_append, flush_append]

/-! ## Reading by `dropWhile` -/

/-- A text whose first non-blank character is a word character starts with a
    maximal word. -/
theorem lex_takeWhile {cs : List α} {c : α} {r : List α} (h : cs.dropWhile A.blank = c :: r)
    (hc : A.word c = true) :
    lex A cs = .word ((c :: r).takeWhile A.word) :: lex A ((c :: r).dropWhile A.word) := by
  rw [← lex_dropWhile_blank, h]
  conv_lhs => rw [← List.takeWhile_append_dropWhile (p := A.word) (l := c :: r)]
  refine lex_word (by simp [hc])
    (fun d hd => List.all_eq_true.1 List.all_takeWhile d hd) ?_
  intro d hd
  have := List.head?_dropWhile_not A.word (c :: r)
  rw [Option.mem_def.1 hd] at this
  simpa using this

/-- A text with a first non-blank character that is no word character starts
    with a symbol. -/
theorem lex_dropWhile_sym {cs : List α} {c : α} {r : List α} (h : cs.dropWhile A.blank = c :: r)
    (hc : A.word c = false) : lex A cs = .sym c :: lex A r := by
  rw [← lex_dropWhile_blank, h]
  refine lex_sym hc ?_ r
  have := List.head?_dropWhile_not A.blank cs
  rw [h] at this
  simpa using this

theorem lex_dropWhile_nil {cs : List α} (h : cs.dropWhile A.blank = []) : lex A cs = [] := by
  rw [← lex_dropWhile_blank, h, lex_nil]

/-! ## Spelling -/

/-- **A text that spells some tokens lexes to them.** -/
theorem Spells.lex_eq {ts : List (Token α)} {cs : List α} (h : Spells A ts cs) : lex A cs = ts := by
  induction h with
  | nil hg => simpa using lex_blanks hg []
  | sym hg hw hb _ ih => rw [lex_blanks hg, lex_sym hw hb, ih]
  | word hg hne hw hs _ ih => rw [lex_blanks hg, lex_word hne hw hs, ih]

theorem Spells.blank {ts : List (Token α)} {cs : List α} {c : α} (hc : A.blank c = true)
    (h : Spells A ts cs) : Spells A ts (c :: cs) := by
  cases h with
  | nil hg => exact .nil (by simpa [hc] using hg)
  | @sym g _ _ _ hg hw hb h => exact .sym (g := c :: g) (by simpa [hc] using hg) hw hb h
  | @word g _ _ _ hg hne hw hs h => exact .word (g := c :: g) (by simpa [hc] using hg) hne hw hs h

/-- The word read so far, in front of a text that does not go on with it. -/
theorem Spells.flush {w cs : List α} {ts : List (Token α)} (hw : ∀ c ∈ w, A.word c = true)
    (hs : Stops A cs) (h : Spells A ts cs) : Spells A (flush w ts) (w ++ cs) := by
  cases w with
  | nil => exact h
  | cons c w => exact .word (g := []) (by simp) (by simp) hw hs h

/-- Every text spells its tokens. -/
theorem spells_lex (cs : List α) : Spells A (lex A cs) cs := by
  suffices ∀ acc : List α, (∀ c ∈ acc, A.word c = true) → Spells A (lexFrom A acc cs) (acc ++ cs)
    from this [] (by simp)
  induction cs with
  | nil => intro acc hacc; exact .flush hacc .nil (.nil (by simp))
  | cons c cs ih =>
    intro acc hacc
    rw [lexFrom]
    split_ifs with hc hb
    · simpa using ih (acc ++ [c]) (by simpa [or_imp, forall_and, hc] using hacc)
    · exact .flush hacc (.cons (by simpa using hc)) ((ih [] (by simp)).blank hb)
    · exact .flush hacc (.cons (by simpa using hc))
        (.sym (g := []) (by simp) (by simpa using hc) (by simpa using hb) (ih [] (by simp)))

/-- **The texts that spell some tokens are those that lex to them.** -/
theorem spells_iff {ts : List (Token α)} {cs : List α} : Spells A ts cs ↔ lex A cs = ts :=
  ⟨Spells.lex_eq, fun h => h ▸ spells_lex cs⟩

/-- There are no more tokens than characters. -/
theorem Spells.length_le {ts : List (Token α)} {cs : List α} (h : Spells A ts cs) :
    ts.length ≤ cs.length := by
  induction h with
  | nil _ => exact Nat.zero_le _
  | sym _ _ _ _ ih => simp only [List.length_append, List.length_cons]; omega
  | word _ hne _ _ _ ih =>
    have := List.length_pos_iff.2 hne
    simp only [List.length_append, List.length_cons]
    omega

/-- Every character of a text is blank, part of a word, or one of its symbols. -/
theorem Spells.mem {ts : List (Token α)} {cs : List α} (h : Spells A ts cs) {c : α} (hc : c ∈ cs) :
    A.blank c = true ∨ A.word c = true ∨ .sym c ∈ ts := by
  induction h with
  | nil hg => exact Or.inl (hg c hc)
  | sym hg _ _ _ ih =>
    rcases List.mem_append.1 hc with hc | hc
    · exact Or.inl (hg c hc)
    · rcases List.mem_cons.1 hc with rfl | hc
      · exact Or.inr (Or.inr (by simp))
      · exact (ih hc).imp_right (Or.imp_right (List.mem_cons_of_mem _))
  | word hg _ hw _ _ ih =>
    rcases List.mem_append.1 hc with hc | hc
    · exact Or.inl (hg c hc)
    · rcases List.mem_append.1 hc with hc | hc
      · exact Or.inr (Or.inl (hw c hc))
      · exact (ih hc).imp_right (Or.imp_right (List.mem_cons_of_mem _))

end

/-! ## Texts printed with separators -/

/-- Printing the parts of a text in a loop over their indices, with a separator
    behind each part but the last. -/
theorem foldl_intercalate (sep : List α) (l : List (List α)) :
    (List.range l.length).foldl
      (fun r i => if i + 1 < l.length then r ++ l.getD i [] ++ sep else r ++ l.getD i []) [] =
      sep.intercalate l := by
  -- the loop over the parts `l` behind `pre`, with the text `acc` printed so far
  suffices ∀ (l pre : List (List α)) (acc : List α),
      (List.range' pre.length l.length).foldl
        (fun r i => if i + 1 < (pre ++ l).length then r ++ (pre ++ l).getD i [] ++ sep
          else r ++ (pre ++ l).getD i []) acc = acc ++ sep.intercalate l by
    simpa [List.range_eq_range'] using this l [] []
  intro l
  induction l with
  | nil => simp
  | cons w l ih =>
    intro pre acc
    have hget : (pre ++ w :: l).getD pre.length [] = w := by simp
    have happ : (pre ++ [w]) ++ l = pre ++ w :: l := by simp
    have hlen : (pre ++ [w]).length = pre.length + 1 := by simp
    have ih' := ih (pre ++ [w])
    rw [happ, hlen] at ih'
    rw [List.length_cons, List.range'_succ, List.foldl_cons, hget, ih']
    cases l with
    | nil => simp
    | cons w' l => simp [List.append_assoc]

end Lexing
