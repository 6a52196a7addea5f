/-
  The text of a command line.

  A line is a first command and further ones, each behind a pipe sign, and a
  tail at which no word, redirection or pipe sign follows.  Every text starts
  with exactly one such line (`Line.read`).  What a line says is independent of
  how parsing.c reads it:

  * `dangling`: the commands end at a `<` or `>` without a file;
  * `behind`: what is left behind the commands (and that sign);
  * `background`: a `&` is next; `garbage`: something else is left on the line;
  * `lone`: there is one command only, and it has no words.
-/
import OSLabs.Shell.Parser

namespace OSLabs.Shell

open Lexing

/-- One piece of a command: a word, or a redirection with its file. -/
inductive Arg where
  | word (w : Word)
  | redirIn (f : Word)
  | redirOut (f : Word)
  deriving DecidableEq, Repr

namespace Arg

/-- The tokens of a piece. -/
def toks : Arg → List Tok
  | word w => [.word w]
  | redirIn f => [.sym '<', .word f]
  | redirOut f => [.sym '>', .word f]

def word? : Arg → Option Word
  | word w => some w
  | _ => none

def redirIn? : Arg → Option Word
  | redirIn f => some f
  | _ => none

def redirOut? : Arg → Option Word
  | redirOut f => some f
  | _ => none

end Arg

/-- The tokens of a command. -/
def argsToks (args : List Arg) : List Tok := args.flatMap Arg.toks

/-- The tokens of commands that stand behind pipe signs. -/
def moreToks (rest : List (List Arg)) : List Tok := rest.flatMap fun args => .sym '|' :: argsToks args

/-- The tokens of commands with pipe signs between them. -/
def commandsToks (first : List Arg) (rest : List (List Arg)) : List Tok :=
  argsToks first ++ moreToks rest

/-- What a command says: its words in order, and its last redirections. -/
def Cmd.ofArgs (args : List Arg) : Cmd where
  words := args.filterMap Arg.word?
  redirIn := (args.filterMap Arg.redirIn?).getLast?
  redirOut := (args.filterMap Arg.redirOut?).getLast?

/-- No word, redirection or pipe sign comes next. -/
def stopped : List Tok → Bool
  | .word _ :: _ => false
  | .sym '|' :: _ => false
  | .sym '<' :: .word _ :: _ => false
  | .sym '>' :: .word _ :: _ => false
  | _ => true

/-- The commands end at a redirection without a file. -/
def dangles : List Tok → Bool
  | .sym c :: _ => c == '<' || c == '>'
  | _ => false

/-- What is left behind the commands and the sign of such a redirection. -/
def leftBehind (tail : List Tok) : List Tok := if dangles tail then tail.tail else tail

/-- A command line, with the text behind it. -/
structure Line where
  first : List Arg
  rest : List (List Arg)
  tail : List Tok
  stop : stopped tail = true

namespace Line

/-- The tokens of a line. -/
def toks (L : Line) : List Tok := commandsToks L.first L.rest ++ L.tail

/-- The commands of a line. -/
def commands (L : Line) : List (List Arg) := L.first :: L.rest

/-- The commands end at a redirection without a file. -/
def dangling (L : Line) : Bool := dangles L.tail

/-- What is left behind the commands. -/
def behind (L : Line) : List Tok := leftBehind L.tail

/-- A `&` follows the commands. -/
def background (L : Line) : Bool := (nextOp '&' L.behind).1

/-- Something is left on the line behind the commands and a `&`. -/
def garbage (L : Line) : Bool := !blankLine (nextOp '&' L.behind).2

/-- There is only one command, and it has no words. -/
def lone (L : Line) : Bool := L.rest.isEmpty && (Cmd.ofArgs L.first).words.isEmpty

/-- The commands themselves are faulty: a redirection lacks its file, or there
    is no word at all. -/
def faulty (L : Line) : Bool := L.dangling || L.lone

/-! ## Every text starts with a line -/

/-- The first command, the commands behind pipe signs, and the tail. -/
def split : List Tok → List Arg × List (List Arg) × List Tok
  | .word w :: ts => (.word w :: (split ts).1, (split ts).2)
  | .sym '<' :: .word f :: ts => (.redirIn f :: (split ts).1, (split ts).2)
  | .sym '>' :: .word f :: ts => (.redirOut f :: (split ts).1, (split ts).2)
  | .sym '|' :: ts => ([], (split ts).1 :: (split ts).2.1, (split ts).2.2)
  | ts => ([], [], ts)

theorem toks_split (ts : List Tok) :
    commandsToks (split ts).1 (split ts).2.1 ++ (split ts).2.2 = ts := by
  induction ts using split.induct with
  | case1 w ts ih => simpa [split, commandsToks, argsToks, Arg.toks] using ih
  | case2 f ts ih => simpa [split, commandsToks, argsToks, Arg.toks] using ih
  | case3 f ts ih => simpa [split, commandsToks, argsToks, Arg.toks] using ih
  | case4 ts ih => simpa [split, commandsToks, argsToks, moreToks] using ih
  | case5 ts h₁ h₂ h₃ h₄ => rw [split.eq_5 ts h₁ h₂ h₃ h₄]; simp [commandsToks, argsToks, moreToks]

theorem stopped_split (ts : List Tok) : stopped (split ts).2.2 = true := by
  induction ts using split.induct with
  | case1 w ts ih => simpa [split] using ih
  | case2 f ts ih => simpa [split] using ih
  | case3 f ts ih => simpa [split] using ih
  | case4 ts ih => simpa [split] using ih
  | case5 ts h₁ h₂ h₃ h₄ =>
    rw [split.eq_5 ts h₁ h₂ h₃ h₄]
    unfold stopped
    split
    · exact (h₁ _ _ ‹_›).elim
    · exact (h₄ _ ‹_›).elim
    · exact (h₂ _ _ ‹_›).elim
    · exact (h₃ _ _ ‹_›).elim
    · rfl

/-- **The line a text starts with.** -/
def read (ts : List Tok) : Line := ⟨(split ts).1, (split ts).2.1, (split ts).2.2, stopped_split ts⟩

@[simp] theorem toks_read (ts : List Tok) : (read ts).toks = ts := toks_split ts

/-! ## It starts with one line only -/

theorem split_args (args : List Arg) (ts : List Tok) :
    split (argsToks args ++ ts) = (args ++ (split ts).1, (split ts).2) := by
  induction args with
  | nil => rfl
  | cons a args ih =>
    cases a <;> simp [argsToks, Arg.toks, split] at ih ⊢ <;> simp [ih]

theorem split_more (rest : List (List Arg)) {ts : List Tok} (h : stopped ts = true) :
    split (moreToks rest ++ ts) = ([], rest, ts) := by
  induction rest with
  | nil =>
    refine split.eq_5 ts ?_ ?_ ?_ ?_
    · rintro w ts' rfl; simp [stopped] at h
    · rintro f ts' rfl; simp [stopped] at h
    · rintro f ts' rfl; simp [stopped] at h
    · rintro ts' rfl; simp [stopped] at h
  | cons args rest ih =>
    have : moreToks (args :: rest) ++ ts = .sym '|' :: (argsToks args ++ (moreToks rest ++ ts)) := by
      simp [moreToks]
    rw [this, split, split_args, ih, List.append_nil]

/-- A line is read back from its tokens. -/
theorem read_toks (L : Line) : read L.toks = L := by
  have h : split L.toks = (L.first, L.rest, L.tail) := by
    rw [toks, commandsToks, List.append_assoc, split_args, split_more L.rest L.stop,
      List.append_nil]
  simp only [read, h]

/-! ## A line ends at its newline -/

theorem stopped_newline {tail : List Tok} (h : stopped tail = true) (ts : List Tok) :
    stopped (tail ++ .sym '\n' :: ts) = true := by
  rcases tail with _ | ⟨_ | c, tail⟩
  · rfl
  · exact h
  · rcases tail with _ | ⟨_ | d, tail⟩ <;> unfold stopped at h ⊢ <;> grind

/-- The line with a newline and other lines behind it. -/
def followedBy (L : Line) (ts : List Tok) : Line :=
  { L with tail := L.tail ++ .sym '\n' :: ts, stop := stopped_newline L.stop ts }

theorem followedBy_toks (L : Line) (ts : List Tok) :
    (L.followedBy ts).toks = L.toks ++ .sym '\n' :: ts :=
  (List.append_assoc ..).symm

theorem followedBy_dangling (L : Line) (ts : List Tok) :
    (L.followedBy ts).dangling = L.dangling := by
  show dangles (L.tail ++ _) = dangles L.tail
  rcases L.tail with _ | ⟨_ | c, tail⟩ <;> rfl

theorem followedBy_behind (L : Line) (ts : List Tok) :
    (L.followedBy ts).behind = L.behind ++ .sym '\n' :: ts := by
  have hd := L.followedBy_dangling ts
  simp only [dangling] at hd
  simp only [behind, leftBehind, hd]
  show (if dangles L.tail = true then (L.tail ++ _).tail else L.tail ++ _) = _
  rcases L.tail with _ | ⟨t, tail⟩
  · rfl
  · split_ifs <;> rfl

/-- The newline is no operator. -/
theorem nextOp_newline {c : Char} (hc : c ≠ '\n') (us ts : List Tok) :
    nextOp c (us ++ .sym '\n' :: ts) =
      ((nextOp c us).1, (nextOp c us).2 ++ .sym '\n' :: ts) := by
  rcases us with _ | ⟨_ | d, us⟩
  · exact if_neg (Ne.symm hc)
  · rfl
  · simp only [List.cons_append, nextOp]
    split_ifs <;> rfl

theorem blankLine_newline (us ts : List Tok) :
    blankLine (us ++ .sym '\n' :: ts) = blankLine us := by
  rcases us with _ | ⟨_ | d, us⟩ <;> rfl

theorem followedBy_background (L : Line) (ts : List Tok) :
    (L.followedBy ts).background = L.background := by
  rw [background, followedBy_behind, nextOp_newline (by decide)]; rfl

theorem followedBy_garbage (L : Line) (ts : List Tok) :
    (L.followedBy ts).garbage = L.garbage := by
  rw [garbage, followedBy_behind, nextOp_newline (by decide), blankLine_newline]; rfl

theorem followedBy_faulty (L : Line) (ts : List Tok) : (L.followedBy ts).faulty = L.faulty := by
  rw [faulty, followedBy_dangling]; rfl

end Line

end OSLabs.Shell
