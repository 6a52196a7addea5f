/-
  The parser of lab1 as parser.h documents it.

  Only the header of the parser is in the repository (its code comes compiled),
  so a parser is a parameter: its five operations and its end-of-file test, on
  a state of any type.  `Documented` is what parser.h says of them, in terms of
  the unread input:

  * words are maximal runs of word characters, blanks are `' '` and `'\t'`, and
    the unread tokens are `toks`;
  * `parserNextArgument` reads a word, or a redirection with its file
    (`nextArgument`); `parserOpPipe` and `parserOpBackground` read their
    operator if it is the next token (`nextOp`);
  * only `parserGarbage` consumes a newline, and it consumes through it
    (`afterLine`).
-/
import OSLabs.Lib.Lexing
import OSLabs.Shell.Command

namespace OSLabs.Shell

open Lexing

/-- `arg_kind_t`. -/
inductive ArgKind where
  | normal | input | output
  deriving DecidableEq, Repr

/-- A parser whose states are of type `σ`. -/
structure Parser (σ : Type) where
  parserNextArgument : σ → Option Word × ArgKind × σ
  parserOpBackground : σ → Bool × σ
  parserSkipBlanks : σ → σ
  parserOpPipe : σ → Bool × σ
  parserGarbage : σ → Bool × σ
  parserAtEof : σ → Bool

/-- A blank: a space or a tabulator. -/
def isBlank (c : Char) : Bool := c == ' ' || c == '\t'

/-- The characters with a meaning of their own. -/
def isSpecial (c : Char) : Bool := c == '\n' || c == '<' || c == '>' || c == '|' || c == '&'

/-- The characters of words: neither blank nor special. -/
structure WordChars where
  word : Char → Bool
  not_blank : ∀ c, word c = true → isBlank c = false
  not_special : ∀ c, word c = true → isSpecial c = false

/-- All characters but the blank and the special ones. -/
def WordChars.all : WordChars where
  word c := !isBlank c && !isSpecial c
  not_blank c hc := by simp at hc; exact hc.1
  not_special c hc := by simp at hc; exact hc.2

/-- The alphabet of command lines. -/
def WordChars.alphabet (W : WordChars) : Alphabet Char := ⟨W.word, isBlank, W.not_blank⟩

abbrev Tok := Token Char

/-- The tokens of a text. -/
abbrev toks (W : WordChars) (cs : List Char) : List Tok := lex W.alphabet cs

/-- What follows the first newline of a text. -/
def afterLine (cs : List Char) : List Char := (cs.dropWhile (· != '\n')).tail

/-- `parserNextArgument` on the unread tokens: the argument, its kind, and the
    tokens left. -/
def nextArgument : List Tok → Option Word × ArgKind × List Tok
  | .word w :: ts => (some w, .normal, ts)
  | .sym '<' :: .word f :: ts => (some f, .input, ts)
  | .sym '>' :: .word f :: ts => (some f, .output, ts)
  | .sym '<' :: ts => (none, .input, ts)
  | .sym '>' :: ts => (none, .output, ts)
  | ts => (none, .normal, ts)

/-- `parserOpPipe` and `parserOpBackground` on the unread tokens, for the
    operator `c`. -/
def nextOp (c : Char) : List Tok → Bool × List Tok
  | .sym d :: ts => if d = c then (true, ts) else (false, .sym d :: ts)
  | ts => (false, ts)

/-- The line the tokens start with is blank. -/
def blankLine : List Tok → Bool
  | [] => true
  | .sym c :: _ => c == '\n'
  | .word _ :: _ => false

/-- **parser.h.**  The operations of the parser in terms of its unread input. -/
structure Documented {σ : Type} (P : Parser σ) (W : WordChars) (unread : σ → List Char) : Prop where
  skipBlanks : ∀ s, toks W (unread (P.parserSkipBlanks s)) = toks W (unread s)
  nextArg : ∀ s, nextArgument (toks W (unread s)) =
    ((P.parserNextArgument s).1, (P.parserNextArgument s).2.1,
      toks W (unread (P.parserNextArgument s).2.2))
  opPipe : ∀ s, nextOp '|' (toks W (unread s)) =
    ((P.parserOpPipe s).1, toks W (unread (P.parserOpPipe s).2))
  opBackground : ∀ s, nextOp '&' (toks W (unread s)) =
    ((P.parserOpBackground s).1, toks W (unread (P.parserOpBackground s).2))
  garbage : ∀ s, (P.parserGarbage s).1 = !blankLine (toks W (unread s))
  garbage_line : ∀ s, unread (P.parserGarbage s).2 = afterLine (unread s)
  skipBlanks_line : ∀ s, afterLine (unread (P.parserSkipBlanks s)) = afterLine (unread s)
  nextArg_line : ∀ s, afterLine (unread (P.parserNextArgument s).2.2) = afterLine (unread s)
  opPipe_line : ∀ s, afterLine (unread (P.parserOpPipe s).2) = afterLine (unread s)
  opBackground_line : ∀ s, afterLine (unread (P.parserOpBackground s).2) = afterLine (unread s)

end OSLabs.Shell
