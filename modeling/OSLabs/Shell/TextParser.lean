/-
  A parser that is as parser.h documents it: `textParser` reads a text
  directly.

  Its state is the unread text and the end-of-file mark, which is set when an
  operation looks for a character behind the end of the text.
-/
import OSLabs.Shell.Parser

namespace OSLabs.Shell

open Lexing

/-- The unread text, and whether its end was met. -/
structure TextState where
  unread : List Char
  off : Bool := false
  deriving DecidableEq, Repr

namespace TextState

/-- Skip the blanks; the end of the text is met if nothing is left. -/
def skip (s : TextState) : TextState :=
  let cs := s.unread.dropWhile isBlank
  ⟨cs, s.off || cs.isEmpty⟩

/-- Read the operator `c`, if it is next. -/
def op (c : Char) (s : TextState) : Bool × TextState :=
  match s.skip with
  | ⟨[], off⟩ => (false, ⟨[], off⟩)
  | ⟨d :: ds, off⟩ => if d = c then (true, ⟨ds, off⟩) else (false, ⟨d :: ds, off⟩)

/-- Read a word, if one is next. -/
def readWord (W : WordChars) (s : TextState) : Option Word × TextState :=
  match s.skip.unread.takeWhile W.word with
  | [] => (none, s.skip)
  | c :: w => (some (c :: w), ⟨s.skip.unread.dropWhile W.word, s.skip.off⟩)

/-- Read a redirection or a word. -/
def readArgument (W : WordChars) (s : TextState) : Option Word × ArgKind × TextState :=
  match s.op '<' with
  | (true, s) => ((s.readWord W).1, .input, (s.readWord W).2)
  | (false, s) =>
    match s.op '>' with
    | (true, s) => ((s.readWord W).1, .output, (s.readWord W).2)
    | (false, s) => ((s.readWord W).1, .normal, (s.readWord W).2)

/-- Read through the newline, and tell if there was something else. -/
def readLine (s : TextState) : Bool × TextState :=
  let line := s.skip.unread.takeWhile (· != '\n')
  let rest := s.skip.unread.dropWhile (· != '\n')
  (!line.isEmpty, ⟨rest.tail, s.skip.off || rest.isEmpty⟩)

end TextState

/-- The parser of a text with word characters `W`. -/
def textParser (W : WordChars) : Parser TextState where
  parserNextArgument := TextState.readArgument W
  parserOpBackground := TextState.op '&'
  parserSkipBlanks := TextState.skip
  parserOpPipe := TextState.op '|'
  parserGarbage := TextState.readLine
  parserAtEof := TextState.off

namespace TextState
variable {W : WordChars}

/-! ## Consuming characters of the line -/

theorem afterLine_append {l : List Char} (hl : '\n' ∉ l) (r : List Char) :
    afterLine (l ++ r) = afterLine r := by
  induction l with
  | nil => rfl
  | cons c l ih =>
    simp only [List.mem_cons, not_or] at hl
    have hc : (c != '\n') = true := by simpa using fun h => hl.1 h.symm
    have : ((c :: (l ++ r)).dropWhile (· != '\n')) = (l ++ r).dropWhile (· != '\n') :=
      List.dropWhile_cons_of_pos hc
    rw [afterLine, List.cons_append, this]
    exact ih hl.2

theorem afterLine_dropWhile {p : Char → Bool} (hp : p '\n' = false) (cs : List Char) :
    afterLine (cs.dropWhile p) = afterLine cs := by
  conv_rhs => rw [← List.takeWhile_append_dropWhile (p := p) (l := cs)]
  refine (afterLine_append (fun h => ?_) _).symm
  have := List.all_eq_true.1 (List.all_takeWhile (p := p) (l := cs)) _ h
  rw [hp] at this; exact absurd this (by simp)

theorem afterLine_cons {c : Char} (hc : c ≠ '\n') (cs : List Char) :
    afterLine (c :: cs) = afterLine cs :=
  afterLine_append (l := [c]) (by simpa using fun h => hc h.symm) cs

theorem word_newline (W : WordChars) : W.word '\n' = false := by
  cases h : W.word '\n' with
  | false => rfl
  | true => exact absurd (W.not_special _ h) (by decide)

theorem skip_line (s : TextState) : afterLine s.skip.unread = afterLine s.unread :=
  afterLine_dropWhile (by decide) _

theorem op_line {c : Char} (hc : c ≠ '\n') (s : TextState) :
    afterLine (s.op c).2.unread = afterLine s.unread := by
  rw [← skip_line s, op]
  split
  · next h => rw [h]
  · next h =>
    rw [h]
    split_ifs with hd
    · subst hd; exact (afterLine_cons hc _).symm
    · rfl

theorem readWord_line (s : TextState) :
    afterLine (s.readWord W).2.unread = afterLine s.unread := by
  rw [← skip_line s, readWord]
  split
  · rfl
  · exact afterLine_dropWhile (word_newline W) _

theorem readArgument_line (s : TextState) :
    afterLine (s.readArgument W).2.2.unread = afterLine s.unread := by
  rw [← op_line (c := '<') (by decide) s, readArgument]
  split
  · next h => rw [h]; exact readWord_line _
  · next s' h =>
    rw [h, ← op_line (c := '>') (by decide) s']
    split
    · next h => rw [h]; exact readWord_line _
    · next h => rw [h]; exact readWord_line _

/-! ## Reading tokens -/

theorem skip_toks (s : TextState) : toks W s.skip.unread = toks W s.unread :=
  lex_dropWhile_blank (A := W.alphabet) _

/-- What the skipped text starts with. -/
theorem skip_cases (W : WordChars) (s : TextState) :
    (s.skip.unread = [] ∧ toks W s.unread = []) ∨
    (∃ d ds, s.skip.unread = d :: ds ∧ W.word d = false ∧
      toks W s.unread = .sym d :: toks W ds) ∨
    (∃ d ds, s.skip.unread = d :: ds ∧ W.word d = true ∧
      toks W s.unread = .word ((d :: ds).takeWhile W.word) ::
        toks W ((d :: ds).dropWhile W.word)) := by
  rcases h : s.skip.unread with _ | ⟨d, ds⟩
  · exact Or.inl ⟨rfl, lex_dropWhile_nil (A := W.alphabet) h⟩
  · refine Or.inr ?_
    cases hd : W.word d with
    | false => exact Or.inl ⟨d, ds, rfl, hd, lex_dropWhile_sym (A := W.alphabet) h hd⟩
    | true => exact Or.inr ⟨d, ds, rfl, hd, lex_takeWhile (A := W.alphabet) h hd⟩

theorem op_toks {c : Char} (hc : isSpecial c = true) (s : TextState) :
    nextOp c (toks W s.unread) = ((s.op c).1, toks W (s.op c).2.unread) := by
  rcases skip_cases W s with ⟨hs, ht⟩ | ⟨d, ds, hs, hd, ht⟩ | ⟨d, ds, hs, hd, ht⟩
  · have : s.skip = ⟨[], s.skip.off⟩ := by rw [← hs]
    rw [ht, op, this]; rfl
  · have : s.skip = ⟨d :: ds, s.skip.off⟩ := by rw [← hs]
    rw [ht, op, this]
    simp only [nextOp]
    split_ifs with hdc
    · rfl
    · rw [← ht, ← skip_toks, hs]
  · have : s.skip = ⟨d :: ds, s.skip.off⟩ := by rw [← hs]
    have hdc : d ≠ c := by
      rintro rfl; rw [W.not_special _ hd] at hc; exact absurd hc (by simp)
    have hop : s.op c = (false, ⟨d :: ds, s.skip.off⟩) := by rw [op, this]; simp [hdc]
    rw [hop]
    simp only
    rw [← hs, skip_toks, ht, nextOp]
    rintro _ _ ⟨⟩

/-- `readWord` on the unread tokens. -/
def nextWord : List Tok → Option Word × List Tok
  | .word w :: ts => (some w, ts)
  | ts => (none, ts)

theorem readWord_toks (s : TextState) :
    nextWord (toks W s.unread) = ((s.readWord W).1, toks W (s.readWord W).2.unread) := by
  rcases skip_cases W s with ⟨hs, ht⟩ | ⟨d, ds, hs, hd, ht⟩ | ⟨d, ds, hs, hd, ht⟩
  · rw [readWord, ← skip_toks, hs]; simp [nextWord, hs]
  · have htw : s.skip.unread.takeWhile W.word = [] := by rw [hs]; simp [hd]
    rw [readWord, htw, ht]
    simp only [nextWord]
    rw [skip_toks, ht]
  · have htw : s.skip.unread.takeWhile W.word = d :: ds.takeWhile W.word := by rw [hs]; simp [hd]
    rw [readWord, htw, ht, ← hs, htw]
    rfl

/-- A special character at the head of the tokens is no word. -/
theorem nextArgument_eq (ts : List Tok) : nextArgument ts =
    if (nextOp '<' ts).1 then
      ((nextWord (nextOp '<' ts).2).1, .input, (nextWord (nextOp '<' ts).2).2)
    else if (nextOp '>' ts).1 then
      ((nextWord (nextOp '>' ts).2).1, .output, (nextWord (nextOp '>' ts).2).2)
    else ((nextWord ts).1, .normal, (nextWord ts).2) := by
  rcases ts with _ | ⟨_ | d, ts⟩
  · rfl
  · rfl
  · by_cases h₁ : d = '<'
    · subst h₁; rcases ts with _ | ⟨_ | e, ts⟩ <;> rfl
    by_cases h₂ : d = '>'
    · subst h₂; rcases ts with _ | ⟨_ | e, ts⟩ <;> rfl
    simp [nextArgument, nextOp, nextWord, h₁, h₂]

theorem nextOp_snd {c : Char} (ts : List Tok) (h : (nextOp c ts).1 = false) :
    (nextOp c ts).2 = ts := by
  rcases ts with _ | ⟨_ | d, ts⟩
  · rfl
  · rfl
  · simp only [nextOp] at h ⊢
    split_ifs at h ⊢ with hd
    · rfl

theorem readArgument_toks (s : TextState) : nextArgument (toks W s.unread) =
    ((s.readArgument W).1, (s.readArgument W).2.1, toks W (s.readArgument W).2.2.unread) := by
  have hlt := op_toks (W := W) (c := '<') (by decide) s
  rw [nextArgument_eq]
  rcases h : s.op '<' with ⟨_ | _, s₁⟩
  · have hs₁ : toks W s₁.unread = toks W s.unread := by
      have := nextOp_snd (c := '<') (toks W s.unread) (by rw [hlt, h])
      rwa [hlt, h] at this
    have hgt := op_toks (W := W) (c := '>') (by decide) s₁
    rw [hlt, h, ← hs₁]
    rcases h' : s₁.op '>' with ⟨_ | _, s₂⟩
    · have hs₂ : toks W s₂.unread = toks W s₁.unread := by
        have := nextOp_snd (c := '>') (toks W s₁.unread) (by rw [hgt, h'])
        rwa [hgt, h'] at this
      rw [hgt, h', ← hs₂, readWord_toks]
      simp [readArgument, h, h']
    · rw [hgt, h', readWord_toks s₂]
      simp [readArgument, h, h']
  · rw [hlt, h, readWord_toks s₁]
    simp [readArgument, h]

theorem readLine_garbage (s : TextState) : s.readLine.1 = !blankLine (toks W s.unread) := by
  rcases skip_cases W s with ⟨hs, ht⟩ | ⟨d, ds, hs, hd, ht⟩ | ⟨d, ds, hs, hd, ht⟩
  · rw [ht, readLine, hs]; rfl
  · rw [ht, readLine, hs]
    by_cases hn : d = '\n' <;> simp [blankLine, hn]
  · have hn : d ≠ '\n' := by rintro rfl; rw [word_newline] at hd; exact absurd hd (by simp)
    rw [ht, readLine, hs]
    simp [blankLine, hn]

theorem readLine_line (s : TextState) : s.readLine.2.unread = afterLine s.unread := by
  rw [← skip_line s]; rfl

end TextState

/-- **`textParser` is as parser.h documents.** -/
theorem textParser_documented (W : WordChars) : Documented (textParser W) W TextState.unread where
  skipBlanks := TextState.skip_toks
  nextArg := TextState.readArgument_toks
  opPipe := TextState.op_toks (by decide)
  opBackground := TextState.op_toks (by decide)
  garbage := TextState.readLine_garbage
  garbage_line := TextState.readLine_line
  skipBlanks_line := TextState.skip_line
  nextArg_line := TextState.readArgument_line
  opPipe_line := TextState.op_line (by decide)
  opBackground_line := TextState.op_line (by decide)

end OSLabs.Shell
