/-
  Well-formed lines parse to their structure.

  A well-formed line spells some commands, each with at least one word, and an
  optional `&`, with any blanks between its tokens.
-/
import OSLabs.Shell.ParsingSpec
import OSLabs.Shell.TextParser

namespace OSLabs.Shell

open Lexing

variable {σ : Type}

/-- The tokens of a well-formed line. -/
def lineToks (first : List Arg) (rest : List (List Arg)) (background : Bool) : List Tok :=
  commandsToks first rest ++ if background then [.sym '&'] else []

/-- A command has at least one word. -/
def HasWord (args : List Arg) : Prop := ∃ w, Arg.word w ∈ args

theorem HasWord.words_ne {args : List Arg} (h : HasWord args) : (Cmd.ofArgs args).words ≠ [] := by
  obtain ⟨w, hw⟩ := h
  exact List.ne_nil_of_mem (List.mem_filterMap.2 ⟨_, hw, rfl⟩)

/-! ## The newline -/

theorem argsToks_newline (args : List Arg) : Token.sym '\n' ∉ argsToks args := by
  simp only [argsToks, List.mem_flatMap, not_exists, not_and]
  intro a _
  cases a <;> simp [Arg.toks]

theorem lineToks_newline (first : List Arg) (rest : List (List Arg)) (b : Bool) :
    Token.sym '\n' ∉ lineToks first rest b := by
  have hmore : Token.sym '\n' ∉ moreToks rest := by
    simp only [moreToks, List.mem_flatMap, not_exists, not_and, List.mem_cons, not_or]
    exact fun args _ => ⟨by simp, argsToks_newline args⟩
  cases b <;> simp [lineToks, commandsToks, argsToks_newline, hmore]

/-- The text of a line contains no newline. -/
theorem spells_newline {W : WordChars} {ts : List Tok} {line : List Char}
    (h : Spells W.alphabet ts line) (hts : Token.sym '\n' ∉ ts) : '\n' ∉ line := by
  intro hc
  rcases h.mem hc with hb | hw | hs
  · exact absurd hb (by decide : ¬ isBlank '\n' = true)
  · exact absurd (W.not_special _ hw) (by decide)
  · exact hts hs

/-- The tokens of a line that is followed by a newline. -/
theorem toks_line {W : WordChars} {ts : List Tok} {line : List Char}
    (h : Spells W.alphabet ts line) (rest : List Char) :
    toks W (line ++ '\n' :: rest) = ts ++ .sym '\n' :: toks W rest := by
  have hn : W.word '\n' = false := TextState.word_newline W
  rw [toks, lex_append (Stops.cons hn), h.lex_eq,
    lex_sym hn (by decide : isBlank '\n' = false)]

/-! ## Reading a well-formed line -/

/-- The line of a text that starts with well-formed tokens and a newline. -/
def wellFormedLine (first : List Arg) (rest : List (List Arg)) (b : Bool) (ts : List Tok) : Line where
  first := first
  rest := rest
  tail := (if b then [.sym '&'] else []) ++ .sym '\n' :: ts
  stop := by cases b <;> rfl

theorem wellFormedLine_toks (first : List Arg) (rest : List (List Arg)) (b : Bool) (ts : List Tok) :
    (wellFormedLine first rest b ts).toks = lineToks first rest b ++ .sym '\n' :: ts := by
  simp [Line.toks, wellFormedLine, lineToks]

theorem wellFormedLine_accepted {first : List Arg} (hw : HasWord first) (rest : List (List Arg))
    (b : Bool) (ts : List Tok) : (wellFormedLine first rest b ts).accepted = true := by
  have hl : (Cmd.ofArgs first).words.isEmpty = false := by simpa using hw.words_ne
  cases b <;>
    simp [Line.accepted, Line.faulty, Line.dangling, Line.lone, Line.garbage, Line.behind,
      wellFormedLine, dangles, leftBehind, nextOp, blankLine, hl]

theorem wellFormedLine_background (first : List Arg) (rest : List (List Arg)) (b : Bool)
    (ts : List Tok) : (wellFormedLine first rest b ts).background = b := by
  cases b <;> simp [Line.background, Line.behind, wellFormedLine, dangles, leftBehind, nextOp]

section
variable {P : Parser σ} {W : WordChars} {unread : σ → List Char}

/-- parse_pipeline on a well-formed line. -/
theorem parsePipeline_spelled (hP : Documented P W unread) {first : List Arg}
    (hw : HasWord first) (rest : List (List Arg)) (background : Bool) {line after : List Char}
    (hline : Spells W.alphabet (lineToks first rest background) line) {w : World σ}
    (hr : unread w.parser = line ++ '\n' :: after) {fuel : ℕ}
    (hf : (toks W (unread w.parser)).length + 2 ≤ fuel) :
    ∃ w', parsePipeline P fuel w =
        .ok (some ⟨scommandsFrom w.news (first :: rest), !background⟩, w') ∧
      unread w'.parser = after := by
  set L := wellFormedLine first rest background (toks W after)
  have hacc : L.accepted = true := wellFormedLine_accepted hw _ _ _
  have ht : toks W (unread w.parser) = L.toks := by
    rw [hr, toks_line hline, wellFormedLine_toks]
  rw [ht] at hf
  obtain ⟨w', h, h₁, -⟩ := parsePipeline_read hP hf ht fun hl => by
    simp only [Line.accepted, hl.1] at hacc; exact absurd hacc (by simp)
  rw [hacc, wellFormedLine_background] at h
  refine ⟨w', h, ?_⟩
  rw [h₁, hr, TextState.afterLine_append (spells_newline hline (lineToks_newline _ _ _))]
  simp [afterLine]

/-- **Every well-formed line parses to its structure.**  The commands are
    `first` and those of `rest`. -/
theorem parsePipeline_wellFormed (hP : Documented P W unread) (first : List Arg)
    (rest : List (List Arg)) (hwords : ∀ args ∈ first :: rest, HasWord args) (background : Bool)
    (line after : List Char) (hline : Spells W.alphabet (lineToks first rest background) line)
    (w : World σ) (hr : unread w.parser = line ++ '\n' :: after) (fuel : ℕ)
    (hf : (toks W (unread w.parser)).length + 2 ≤ fuel) :
    ∃ result w', parsePipeline P fuel w = .ok (some result, w') ∧
      result.pipe.length = rest.length + 1 ∧
      (∀ i (hi : i < result.pipe.length) (args : List Arg), (first :: rest)[i]? = some args →
        result.pipe[i].comm = args.filterMap Arg.word? ∧
        result.pipe[i].in_ = (args.filterMap Arg.redirIn?).getLast? ∧
        result.pipe[i].out = (args.filterMap Arg.redirOut?).getLast?) ∧
      (result.waiting = false ↔ background = true) ∧
      unread w'.parser = after := by
  obtain ⟨w', h, h'⟩ := parsePipeline_spelled hP (hwords first (by simp)) rest background hline hr hf
  refine ⟨_, w', h, by simp, fun i hi args hargs => ?_, by simp, h'⟩
  have hcmd : (scommandsFrom w.news (first :: rest))[i].cmd = Cmd.ofArgs args := by
    have := congrArg (fun l => l[i]?) (scommandsFrom_cmd w.news (first :: rest))
    simp only [List.getElem?_map, hargs, List.getElem?_eq_getElem hi, Option.map_some,
      Option.some.injEq] at this
    exact this
  exact ⟨congrArg Cmd.words hcmd, congrArg Cmd.redirIn hcmd, congrArg Cmd.redirOut hcmd⟩

end

/-- The line `ls < f | wc &`. -/
theorem parsePipeline_wellFormed_pipe : ∃ result w',
    parsePipeline (textParser .all) 12 { parser := { unread := "ls < f | wc &\n".toList } } =
      .ok (some result, w') ∧
    result.pipe.length = 2 ∧ result.waiting = false ∧ w'.parser.unread = [] := by
  have hline : Spells WordChars.all.alphabet
      (lineToks [.word "ls".toList, .redirIn "f".toList] [[.word "wc".toList]] true)
      "ls < f | wc &".toList := spells_iff.2 (by decide)
  obtain ⟨result, w', h, hlen, -, hbg, hun⟩ := parsePipeline_wellFormed
    (textParser_documented .all) [.word "ls".toList, .redirIn "f".toList] [[.word "wc".toList]]
    (by simp [HasWord]) true "ls < f | wc &".toList [] hline
    { parser := { unread := "ls < f | wc &\n".toList } } rfl 12 (by decide)
  exact ⟨result, w', h, hlen, hbg.2 rfl, hun⟩

end OSLabs.Shell
