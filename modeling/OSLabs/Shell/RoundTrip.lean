/-
  Parsing a printed pipeline gives the pipeline back.

  `pipelineToString` prints its parts in loops with separators placed by index
  tests.  The printed text has the tokens of a well-formed line
  (`toks_pipelineToString`), and such a line parses to its structure.
-/
import OSLabs.Shell.WellFormed

namespace OSLabs.Shell

open Lexing

variable {σ : Type}

/-- A word that can be printed: it is not empty, and all its characters are
    word characters. -/
def Plain (w : Word) : Prop := w ≠ [] ∧ ∀ c ∈ w, isBlank c = false ∧ isSpecial c = false

instance (w : Word) : Decidable (Plain w) :=
  have : Decidable (∀ c ∈ w, isBlank c = false ∧ isSpecial c = false) := List.decidableBAll _ w
  inferInstanceAs (Decidable (_ ∧ _))

/-- The words and files of a command can be printed, and it has a word. -/
structure Scommand.Printable (sc : Scommand) : Prop where
  comm_ne : sc.comm ≠ []
  comm : ∀ w ∈ sc.comm, Plain w
  in_ : ∀ f ∈ sc.in_, Plain f
  out : ∀ f ∈ sc.out, Plain f

/-- A pipeline that can be printed: it has a command. -/
structure Pipeline.Printable (p : Pipeline) : Prop where
  pipe_ne : p.pipe ≠ []
  pipe : ∀ sc ∈ p.pipe, sc.Printable

/-- The pieces of a printed command. -/
def Scommand.args (sc : Scommand) : List Arg :=
  sc.comm.map .word ++ sc.in_.toList.map .redirIn ++ sc.out.toList.map .redirOut

theorem Scommand.ofArgs_args (sc : Scommand) : Cmd.ofArgs sc.args = sc.cmd := by
  rcases sc with ⟨addr, comm, in_, out⟩
  have hw : ∀ l : List Word, (l.map Arg.word).filterMap Arg.word? = l ∧
      (l.map Arg.word).filterMap Arg.redirIn? = [] ∧
      (l.map Arg.word).filterMap Arg.redirOut? = [] := by
    intro l
    induction l with
    | nil => simp
    | cons w l ih => simpa [Arg.word?, Arg.redirIn?, Arg.redirOut?] using ih
  cases in_ <;> cases out <;>
    simp [Scommand.args, Cmd.ofArgs, Scommand.cmd, hw comm, List.filterMap_cons, Arg.word?,
      Arg.redirIn?, Arg.redirOut?]

theorem Scommand.Printable.hasWord {sc : Scommand} (h : sc.Printable) : HasWord sc.args := by
  obtain ⟨w, hw⟩ := List.exists_mem_of_ne_nil _ h.comm_ne
  exact ⟨w, by simp [Scommand.args, hw]⟩

/-! ## The loops -/

theorem scommandToString_words (sc : Scommand) :
    (List.range sc.comm.length).foldl (scommandToStringRound sc) [] =
      List.intercalate [' '] sc.comm := by
  rw [← foldl_intercalate]
  congr 1
  funext r i
  -- `length - 1` is only reached from inside the loop, where the length is positive
  simp only [scommandToStringRound, strmerge, Nat.lt_sub_iff_add_lt]

theorem pipelineToString_commands (p : Pipeline) :
    (List.range p.pipe.length).foldl (pipelineToStringRound p) [] =
      List.intercalate [' ', '|', ' '] (p.pipe.map scommandToString) := by
  rw [← foldl_intercalate, List.length_map]
  congr 1
  funext r i
  simp only [pipelineToStringRound, strmerge, List.getD_eq_getElem?_getD, List.getElem?_map]

/-! ## The tokens of the printed text -/

theorem stops_blank {W : WordChars} (cs : List Char) : Stops W.alphabet (' ' :: cs) :=
  .cons (W.alphabet.not_word (by decide : isBlank ' ' = true))

theorem toks_special {W : WordChars} {c : Char} (hc : isSpecial c = true)
    (hb : isBlank c = false) (cs : List Char) : toks W (c :: cs) = .sym c :: toks W cs := by
  refine lex_sym ?_ hb cs
  cases h : W.word c with
  | false => exact h
  | true => rw [W.not_special c h] at hc; exact absurd hc (by simp)

theorem toks_space {W : WordChars} (cs : List Char) : toks W (' ' :: cs) = toks W cs :=
  lex_blank (A := W.alphabet) (c := ' ') (by decide : isBlank ' ' = true) cs

theorem Plain.toks {w : Word} (hw : Plain w) {cs : List Char}
    (hs : Stops WordChars.all.alphabet cs) : toks .all (w ++ cs) = .word w :: toks .all cs :=
  lex_word hw.1 (fun c hc => by simp [WordChars.alphabet, WordChars.all, hw.2 c hc]) hs

theorem toks_words {l : List Word} (hl : ∀ w ∈ l, Plain w) {cs : List Char}
    (hs : Stops WordChars.all.alphabet cs) :
    toks .all (List.intercalate [' '] l ++ cs) = l.map .word ++ toks .all cs := by
  induction l with
  | nil => rfl
  | cons w l ih =>
    have hw : Plain w := hl w (by simp)
    cases l with
    | nil => simpa using hw.toks hs
    | cons w' l =>
      have ih := ih fun v hv => hl v (by simp [hv])
      rw [List.intercalate_cons_cons, List.append_assoc, List.append_assoc, List.singleton_append,
        hw.toks (stops_blank _), toks_space, ih]
      rfl

/-- The tokens of a printed redirection. -/
theorem toks_redir {c : Char} (hc : isSpecial c = true) (hb : isBlank c = false) {f : Word}
    (hf : Plain f) {cs : List Char} (hs : Stops WordChars.all.alphabet cs) :
    toks .all (' ' :: c :: ' ' :: (f ++ cs)) = .sym c :: .word f :: toks .all cs := by
  rw [toks_space, toks_special hc hb, toks_space, hf.toks hs]

theorem toks_scommandToString {sc : Scommand} (h : sc.Printable) {cs : List Char}
    (hs : Stops WordChars.all.alphabet cs) :
    toks .all (scommandToString sc ++ cs) = argsToks sc.args ++ toks .all cs := by
  rcases sc with ⟨addr, comm, in_, out⟩
  have hargs : ∀ l : List Word, argsToks (l.map Arg.word) = l.map Token.word := by
    intro l
    induction l with
    | nil => rfl
    | cons w l ih => simpa [argsToks, Arg.toks] using ih
  rw [scommandToString, scommandToString_words]
  cases in_ with
  | none =>
    cases out with
    | none =>
      rw [toks_words h.comm hs]; simp [Scommand.args, hargs]
    | some o =>
      have ho := toks_redir (c := '>') (by decide) (by decide) (h.out o rfl) hs
      simp only [strmerge, List.append_assoc, List.cons_append, List.nil_append]
      rw [toks_words h.comm (stops_blank _), ho]
      simp [Scommand.args, argsToks, ← hargs, Arg.toks]
  | some i =>
    cases out with
    | none =>
      have hi := toks_redir (c := '<') (by decide) (by decide) (h.in_ i rfl) hs
      simp only [strmerge, List.append_assoc, List.cons_append, List.nil_append]
      rw [toks_words h.comm (stops_blank _), hi]
      simp [Scommand.args, argsToks, ← hargs, Arg.toks]
    | some o =>
      have ho := toks_redir (c := '>') (by decide) (by decide) (h.out o rfl) hs
      have hi := toks_redir (c := '<') (by decide) (by decide) (h.in_ i rfl)
        (stops_blank ('>' :: ' ' :: (o ++ cs)))
      simp only [strmerge, List.append_assoc, List.cons_append, List.nil_append]
      rw [toks_words h.comm (stops_blank _), hi, ho]
      simp [Scommand.args, argsToks, ← hargs, Arg.toks]

theorem toks_commands {first : Scommand} {rest : List Scommand} (hf : first.Printable)
    (hr : ∀ sc ∈ rest, sc.Printable) {cs : List Char} (hs : Stops WordChars.all.alphabet cs) :
    toks .all (List.intercalate [' ', '|', ' '] ((first :: rest).map scommandToString) ++ cs) =
      commandsToks first.args (rest.map Scommand.args) ++ toks .all cs := by
  induction rest generalizing first with
  | nil => simpa [commandsToks, moreToks] using toks_scommandToString hf hs
  | cons sc rest ih =>
    have ih := ih (hr sc (by simp)) fun sc' h => hr sc' (by simp [h])
    rw [List.map_cons, List.map_cons, List.intercalate_cons_cons, List.append_assoc,
      List.append_assoc, ← List.map_cons, List.cons_append, List.cons_append, List.cons_append,
      List.nil_append, toks_scommandToString hf (stops_blank _), toks_space,
      toks_special (by decide) (by decide), toks_space, ih]
    simp [commandsToks, moreToks]

/-- **A printed pipeline has the tokens of a well-formed line.** -/
theorem toks_pipelineToString {p : Pipeline} {first : Scommand} {rest : List Scommand}
    (h : p.Printable) (hp : p.pipe = first :: rest) :
    toks .all (pipelineToString p) =
      lineToks first.args (rest.map Scommand.args) !p.waiting := by
  have hpr : ∀ sc ∈ first :: rest, sc.Printable := hp ▸ h.pipe
  have hf : first.Printable := hpr first (by simp)
  have hr : ∀ sc ∈ rest, sc.Printable := fun sc hsc => hpr sc (by simp [hsc])
  rw [pipelineToString, pipelineToString_commands, hp]
  cases p.waiting with
  | true => simpa [strmerge, lineToks] using toks_commands hf hr .nil
  | false =>
    have hs : Stops WordChars.all.alphabet ['&'] := .cons (by decide)
    have ht : toks WordChars.all ['&'] = [.sym '&'] := by decide
    simpa [strmerge, lineToks, ht] using toks_commands hf hr hs

/-! ## The round trip -/

/-- **A printed pipeline parses to itself.** -/
theorem parsePipeline_pipelineToString {P : Parser σ} {unread : σ → List Char}
    (hP : Documented P .all unread) (p : Pipeline) (h : p.Printable) (w : World σ)
    (after : List Char) (hr : unread w.parser = pipelineToString p ++ '\n' :: after) (fuel : ℕ)
    (hf : (toks .all (unread w.parser)).length + 2 ≤ fuel) :
    ∃ result w', parsePipeline P fuel w = .ok (some result, w') ∧
      result.pipe.map Scommand.cmd = p.pipe.map Scommand.cmd ∧
      result.waiting = p.waiting ∧ unread w'.parser = after := by
  obtain ⟨first, rest, hp⟩ := List.exists_cons_of_ne_nil h.pipe_ne
  have hfirst : HasWord first.args := (h.pipe first (by simp [hp])).hasWord
  obtain ⟨w', hw', hun⟩ := parsePipeline_spelled hP hfirst (rest.map Scommand.args) (!p.waiting)
    (spells_iff.2 (toks_pipelineToString h hp)) hr hf
  refine ⟨_, w', hw', ?_, by simp, hun⟩
  rw [scommandsFrom_cmd, hp, ← List.map_cons, List.map_map]
  exact List.map_congr_left fun sc _ => sc.ofArgs_args

/-- The pipeline `ls -l < in | wc > out &`. -/
theorem parsePipeline_pipelineToString_pipe : ∃ result w',
    parsePipeline (textParser .all) 14
      { parser := { unread := "ls -l < in | wc > out&\n".toList } } = .ok (some result, w') ∧
    result.pipe.map Scommand.cmd =
      [⟨["ls".toList, "-l".toList], some "in".toList, none⟩,
        ⟨["wc".toList], none, some "out".toList⟩] ∧
    result.waiting = false ∧ w'.parser.unread = [] := by
  exact parsePipeline_pipelineToString (textParser_documented .all)
    ⟨[⟨0, ["ls".toList, "-l".toList], some "in".toList, none⟩,
      ⟨1, ["wc".toList], none, some "out".toList⟩], false⟩
    ⟨by simp, by
      intro sc hsc
      simp only [List.mem_cons, List.not_mem_nil, or_false] at hsc
      rcases hsc with rfl | rfl
      · exact ⟨by simp, by decide, by decide, by simp⟩
      · exact ⟨by simp, by decide, by simp, by decide⟩⟩
    { parser := { unread := "ls -l < in | wc > out&\n".toList } } [] (by decide) 14 (by decide)

end OSLabs.Shell
