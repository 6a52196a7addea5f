/-
  parser.h requires of all its operations that the parser is not at the end of
  the file.

  The end is met when an argument is looked for and none is left.  So
  parse_pipeline keeps to the requirement exactly if something is left behind
  the commands, such as the newline of the line (`noneAtEof_iff`).

  `World.usedAtEof` notes the operations that are used at the end of the file.
-/
import OSLabs.Shell.Consuming
import OSLabs.Shell.ParsingSafety

namespace OSLabs.Shell

variable {σ : Type}

/-! ## Where the end is met -/

/-- An operation stays at the end, and gets there only if nothing is left. -/
structure Ends (P : Parser σ) (unread : σ → List Char) (s s' : σ) : Prop where
  stays : P.parserAtEof s = true → P.parserAtEof s' = true
  nothing : P.parserAtEof s' = true → P.parserAtEof s = true ∨ unread s' = []

/-- **How a parser gets to the end of the file.**  The end is met by an operation
    that looks for an argument when none is left.  If a `&` that is the last
    character counts as the end when it is read, the parser is `eager`. -/
structure MeetsEnd (P : Parser σ) (W : WordChars) (unread : σ → List Char) (eager : Bool) :
    Prop where
  nextArgument : ∀ s, Ends P unread s (P.parserNextArgument s).2.2
  opBackground : ∀ s, Ends P unread s (P.parserOpBackground s).2
  skipBlanks : ∀ s, Ends P unread s (P.parserSkipBlanks s)
  opPipe : ∀ s, Ends P unread s (P.parserOpPipe s).2
  argument : ∀ s, (P.parserNextArgument s).1 = none →
    toks W (unread (P.parserNextArgument s).2.2) = [] →
    P.parserAtEof (P.parserNextArgument s).2.2 = true
  ampersand : ∀ s, (P.parserOpBackground s).1 = true →
    ∃ g, (∀ c ∈ g, isBlank c = true) ∧ unread s = g ++ '&' :: unread (P.parserOpBackground s).2
  eager : ∀ s, (P.parserOpBackground s).1 = true → P.parserAtEof s = false →
    unread (P.parserOpBackground s).2 = [] → P.parserAtEof (P.parserOpBackground s).2 = eager

/-- No operation that parse_pipeline uses is used at the end of the file: those
    up to the garbage check, and the one of that check. -/
def NoneAtEof (P : Parser σ) (fuel : ℕ) (w : World σ) : Prop :=
  ∃ r w', parseCommands P fuel w = .ok (r, w') ∧ (w'.parserGarbage P).2.usedAtEof = w.usedAtEof

section
variable {P : Parser σ} {W : WordChars} {unread : σ → List Char} {eager : Bool} {n fuel : ℕ}
  {w w' : World σ} {op : ParserOp} {s : σ}

theorem World.after_usedAtEof (h : P.parserAtEof w.parser = false) :
    (w.after P op s).usedAtEof = w.usedAtEof := by
  simp [World.after, h]

theorem World.after_noted (h : P.parserAtEof w.parser = true) :
    (w.after P op s).usedAtEof = w.usedAtEof ++ [op] := by
  simp [World.after, h]

theorem World.after_prefix : w.usedAtEof <+: (w.after P op s).usedAtEof := by
  cases h : P.parserAtEof w.parser with
  | true => rw [after_noted h]; exact List.prefix_append ..
  | false => exact (after_usedAtEof h).symm ▸ List.prefix_rfl

/-! ## Before the end -/

/-- From `w` to `w'` some text is consumed; and as long as something is left, the
    end is not met, and nothing is noted. -/
structure World.Within (P : Parser σ) (unread : σ → List Char) (w w' : World σ) : Prop where
  consumes : Consumes (unread w.parser) (unread w'.parser)
  clean : P.parserAtEof w.parser = false → unread w'.parser ≠ [] →
    P.parserAtEof w'.parser = false ∧ w'.usedAtEof = w.usedAtEof

theorem World.Within.trans {w'' : World σ} (h : World.Within P unread w w')
    (h' : World.Within P unread w' w'') : World.Within P unread w w'' := by
  refine ⟨h.consumes.trans h'.consumes, fun heof hne => ?_⟩
  have hne' : unread w'.parser ≠ [] := by
    obtain ⟨l, -, hl⟩ := h'.consumes
    rw [hl]
    exact fun hnil => hne (List.append_eq_nil_iff.1 hnil).2
  obtain ⟨heof', hused⟩ := h.clean heof hne'
  obtain ⟨heof'', hused'⟩ := h'.clean heof' hne
  exact ⟨heof'', hused'.trans hused⟩

theorem World.Within.after (hc : Consumes (unread w.parser) (unread s))
    (he : Ends P unread w.parser s) : World.Within P unread w (w.after P op s) := by
  refine ⟨hc, fun heof hne => ⟨?_, after_usedAtEof heof⟩⟩
  refine Bool.eq_false_iff.2 fun hend => ?_
  rcases he.nothing hend with hend | hnil
  · rw [heof] at hend; cases hend
  · exact hne hnil

theorem within_follows (hC : Progress P unread) (hE : MeetsEnd P W unread eager) :
    Follows P (World.Within P unread) where
  ledger {w w'} hp hu := by
    refine ⟨by rw [hp]; exact .refl _, fun heof _ => ?_⟩
    rw [hp]; exact ⟨heof, hu⟩
  trans := .trans
  nextArgument w := .after (hC.nextArgument _) (hE.nextArgument _)
  opBackground w := .after (hC.opBackground _) (hE.opBackground _)
  skipBlanks w := .after (hC.skipBlanks _) (hE.skipBlanks _)
  opPipe w := .after (hC.opPipe _) (hE.opPipe _)

/-! ## Behind the end -/

/-- What is noted stays noted, and the end is not left. -/
structure World.Notes (P : Parser σ) (w w' : World σ) : Prop where
  noted : w.usedAtEof <+: w'.usedAtEof
  stays : P.parserAtEof w.parser = true → P.parserAtEof w'.parser = true

theorem notes_follows (hE : MeetsEnd P W unread eager) : Follows P (World.Notes P) where
  ledger hp hu := ⟨hu.symm ▸ List.prefix_rfl, by rw [hp]; exact id⟩
  trans h h' := ⟨h.noted.trans h'.noted, fun heof => h'.stays (h.stays heof)⟩
  nextArgument w := ⟨World.after_prefix, (hE.nextArgument _).stays⟩
  opBackground w := ⟨World.after_prefix, (hE.opBackground _).stays⟩
  skipBlanks w := ⟨World.after_prefix, (hE.skipBlanks _).stays⟩
  opPipe w := ⟨World.after_prefix, (hE.opPipe _).stays⟩

/-- The end is met if no token is left. -/
def World.Met (P : Parser σ) (W : WordChars) (unread : σ → List Char) (w : World σ) : Prop :=
  toks W (unread w.parser) = [] → P.parserAtEof w.parser = true

theorem parseScommandLoop_met (hP : Documented P W unread) (hE : MeetsEnd P W unread eager)
    {sc : Scommand} {a : Option Word} {k k' : ArgKind} {c : Option Scommand}
    (ha : a = none → w.Met P W unread)
    (hrun : parseScommandLoop P n w (some sc) a k = .ok (c, k', w')) : w'.Met P W unread := by
  induction n generalizing w sc a k with
  | zero => cases hrun
  | succ n ih =>
    cases a with
    | none => cases hrun; exact ha rfl
    | some x =>
      obtain ⟨sc', hround⟩ := parseScommandLoop_some P n w sc x k
      rw [hround] at hrun
      refine ih (fun hnone htoks => ?_) hrun
      have htoks' : toks W (unread (P.parserNextArgument w.parser).2.2) = [] :=
        (hP.skipBlanks _).symm.trans htoks
      exact (hE.skipBlanks _).stays (hE.argument _ hnone htoks')

/-- parse_scommand meets the end if it leaves no token. -/
theorem parseScommand_met (hP : Documented P W unread) (hE : MeetsEnd P W unread eager)
    {c : Option Scommand} (hrun : parseScommand P fuel w = .ok (c, w')) : w'.Met P W unread := by
  obtain ⟨⟨c₁, k, w₁⟩, hloop, hrun⟩ := ok_of_bind hrun
  have hmet : w₁.Met P W unread :=
    parseScommandLoop_met hP hE (fun hnone htoks => hE.argument _ hnone htoks) hloop
  simp only at hrun
  split_ifs at hrun
  · obtain ⟨w₂, hdestroy, hrun⟩ := ok_of_bind hrun
    obtain ⟨hp, -⟩ := scommandDestroy_keeps hdestroy
    cases hrun
    rw [World.Met, hp]; exact hmet
  · cases hrun; exact hmet

theorem parsePipelineLoop_met (hP : Documented P W unread) (hE : MeetsEnd P W unread eager)
    {p p' : Pipeline} {c : Option Scommand} {b e e' : Bool} (hmet : w.Met P W unread)
    (hrun : parsePipelineLoop P fuel n w p c b e = .ok (p', e', w')) : w'.Met P W unread := by
  induction n generalizing w p c b e with
  | zero => cases hrun
  | succ n ih =>
    rw [parsePipelineLoop] at hrun
    split_ifs at hrun
    · obtain ⟨p₁, -, hrun⟩ := ok_of_bind hrun
      obtain ⟨⟨c₁, w₁⟩, hcommand, hrun⟩ := ok_of_bind hrun
      exact ih (parseScommand_met hP hE hcommand) hrun
    · cases hrun; exact hmet

/-! ## The whole line -/

/-- Behind the commands of a line, parse_pipeline reads a `&`, and then the rest
    of the line. -/
theorem parseCommands_behind (hP : Documented P W unread) (hC : Progress P unread)
    (hE : MeetsEnd P W unread eager) (hf : (unread w.parser).length + 2 ≤ fuel) {L : Line}
    (hL : toks W (unread w.parser) = L.toks) :
    ∃ w₁ : World σ, toks W (unread w₁.parser) = L.behind ∧ World.Within P unread w w₁ ∧
      World.Notes P w w₁ ∧ w₁.Met P W unread ∧
      (NoneAtEof P fuel w ↔
        ((w₁.parserOpBackground P).2.parserGarbage P).2.usedAtEof = w.usedAtEof) := by
  have hlen : L.toks.length + 2 ≤ fuel := by
    have : (toks W (unread w.parser)).length ≤ _ := (Lexing.spells_lex _).length_le
    rw [hL] at this
    omega
  obtain ⟨hargs, hrest⟩ := Line.fuel_bounds hlen
  obtain ⟨w₁, hread, hr⟩ := parsePipelineLoop_read hP L.stop L.rest L.first fuel w pipelineNew
    hargs hrest hL
  obtain ⟨⟨c, w₀⟩, hcommand, hloop⟩ := ok_of_bind hread
  have hwithin := within_follows hC hE
  have hnotes := notes_follows hE
  refine ⟨w₁, hr.toks, hwithin.trans (hwithin.parseScommand hcommand)
    (hwithin.parsePipelineLoop hloop), hnotes.trans (hnotes.parseScommand hcommand)
    (hnotes.parsePipelineLoop hloop), parsePipelineLoop_met hP hE (parseScommand_met hP hE hcommand)
    hloop, ?_⟩
  obtain ⟨p, e, hrun⟩ : ∃ p e, parseCommands P fuel w =
      checkErrors (w₁.parserOpBackground P).2 p e := by
    simp only [parseCommands, hcommand, hloop, pipelineSetWait, notNull_some, bind, Except.bind,
      pure, Except.pure]
    exact ⟨_, _, rfl⟩
  obtain ⟨r, w₂, hcheck⟩ := checkErrors_returns (w₁.parserOpBackground P).2 p e
  obtain ⟨hp, hu⟩ := checkErrors_keeps hcheck
  have hlast : (w₂.parserGarbage P).2.usedAtEof =
      ((w₁.parserOpBackground P).2.parserGarbage P).2.usedAtEof := by
    simp only [World.parserGarbage, World.after, hp, hu]
  rw [← hlast]
  constructor
  · rintro ⟨r', w', hrun', hused⟩
    rw [hrun, hcheck] at hrun'
    cases hrun'
    exact hused
  · exact fun hused => ⟨r, w₂, hrun.trans hcheck, hused⟩

/-- An operator that leaves nothing is the last token. -/
theorem nextOp_last {c : Char} {ts : List Tok} (hne : ts ≠ []) (h : (nextOp c ts).2 = []) :
    ts = [.sym c] ∧ (nextOp c ts).1 = true := by
  rcases ts with _ | ⟨_ | d, ts⟩
  · exact absurd rfl hne
  · cases h
  · simp only [nextOp] at h ⊢
    split_ifs at h ⊢ with hd
    · obtain rfl : ts = [] := h
      exact ⟨by rw [hd], rfl⟩

/-- The text ends with a `&`, and no token is behind it. -/
theorem getLast_ampersand {g rest : List Char} (h : toks W rest = []) :
    (g ++ '&' :: rest).getLast? = some '&' ↔ rest = [] := by
  constructor
  · intro hlast
    rcases List.eq_nil_or_concat rest with rfl | ⟨l, c, rfl⟩
    · rfl
    · rw [List.concat_eq_append, ← List.cons_append, ← List.append_assoc,
        List.getLast?_concat] at hlast
      cases hlast
      have hword : W.word '&' = false := by
        cases hw : W.word '&' with
        | false => rfl
        | true => exact absurd (W.not_special _ hw) (by decide)
      rw [toks, List.concat_eq_append, Lexing.lex_append (Lexing.Stops.cons hword),
        Lexing.lex_sym hword (by decide : isBlank '&' = false)] at h
      simp at h
  · rintro rfl
    simp

/-- **parse_pipeline uses no operation at the end of the file exactly if
    something is left behind the commands**: the newline, a `&` or another
    sign; if the parser is eager, not only a `&` that ends the text. -/
theorem noneAtEof_iff (hP : Documented P W unread) (hC : Progress P unread)
    (hE : MeetsEnd P W unread eager) (w : World σ) (heof : P.parserAtEof w.parser = false)
    (hf : (unread w.parser).length + 2 ≤ fuel) :
    NoneAtEof P fuel w ↔ (w.line W unread).behind ≠ [] ∧
      ¬ (eager = true ∧ (w.line W unread).behind = [.sym '&'] ∧
        (unread w.parser).getLast? = some '&') := by
  set L := w.line W unread
  have hL : toks W (unread w.parser) = L.toks := (Line.toks_read _).symm
  obtain ⟨w₁, htoks, hwithin, hnotes, hmet, hiff⟩ := parseCommands_behind hP hC hE hf hL
  rw [hiff]
  set w₂ := (w₁.parserOpBackground P).2 with hw₂
  have hparser : w₂.parser = (P.parserOpBackground w₁.parser).2 := rfl
  have hback := hP.opBackground w₁.parser
  rw [htoks] at hback
  by_cases hnil : L.behind = []
  · -- the end is met before the `&` is looked for
    refine iff_of_false (fun hused => ?_) fun h => h.1 hnil
    have heof₁ : P.parserAtEof w₁.parser = true := hmet (htoks.trans hnil)
    have hprefix : w₂.usedAtEof <+: (w₂.parserGarbage P).2.usedAtEof := World.after_prefix
    have hle := hprefix.length_le
    have hle₁ := hnotes.noted.length_le
    rw [hused, hw₂, World.parserOpBackground, World.after_noted heof₁] at hle
    simp only [List.length_append, List.length_singleton] at hle
    omega
  · have hne : unread w₁.parser ≠ [] := fun h => hnil (by rw [← htoks, h]; rfl)
    obtain ⟨heof₁, hused₁⟩ := hwithin.clean heof hne
    have hused₂ : w₂.usedAtEof = w.usedAtEof := (World.after_usedAtEof heof₁).trans hused₁
    -- only the last operation may be used at the end
    have hgarbage : (w₂.parserGarbage P).2.usedAtEof = w.usedAtEof ↔
        P.parserAtEof w₂.parser = false := by
      cases h : P.parserAtEof w₂.parser with
      | false => exact iff_of_true ((World.after_usedAtEof h).trans hused₂) rfl
      | true =>
        refine iff_of_false (fun hused => ?_) fun h => by cases h
        have hnoted : (w₂.parserGarbage P).2.usedAtEof = w₂.usedAtEof ++ [.garbage] :=
          World.after_noted h
        rw [hnoted, hused₂] at hused
        simp at hused
    rw [hgarbage, Bool.eq_false_iff, hparser]
    constructor
    · intro h
      refine ⟨hnil, ?_⟩
      rintro ⟨heager, hamp, hlast⟩
      apply h
      rw [hamp] at hback
      simp only [nextOp, if_true, Prod.mk.injEq] at hback
      obtain ⟨g, -, hg⟩ := hE.ampersand w₁.parser hback.1.symm
      obtain ⟨l, -, hl⟩ := hwithin.consumes
      rw [hl, List.getLast?_append_of_ne_nil _ hne, hg, getLast_ampersand hback.2.symm] at hlast
      rw [hE.eager w₁.parser hback.1.symm heof₁ hlast, heager]
    · rintro ⟨-, h⟩ hend
      apply h
      rcases (hE.opBackground w₁.parser).nothing hend with hend₁ | hrest
      · rw [heof₁] at hend₁; cases hend₁
      · have hlast : (nextOp '&' L.behind).2 = [] := by rw [hback, hrest]; rfl
        obtain ⟨hamp, hfound⟩ := nextOp_last hnil hlast
        rw [hback] at hfound
        obtain ⟨g, -, hg⟩ := hE.ampersand w₁.parser hfound
        obtain ⟨l, -, hl⟩ := hwithin.consumes
        refine ⟨(hE.eager w₁.parser hfound heof₁ hrest).symm.trans hend, hamp, ?_⟩
        rw [hl, List.getLast?_append_of_ne_nil _ hne, hg, hrest, List.getLast?_concat]

end

/-! ## A parser that marks the end -/

theorem Ends.trans {P : Parser σ} {unread : σ → List Char} {s s' s'' : σ}
    (h : Ends P unread s s') (hc : Consumes (unread s') (unread s''))
    (h' : Ends P unread s' s'') : Ends P unread s s'' := by
  refine ⟨fun hend => h'.stays (h.stays hend), fun hend => ?_⟩
  rcases h'.nothing hend with hend' | hnil
  · refine (h.nothing hend').imp_right fun hnil => ?_
    obtain ⟨l, -, hl⟩ := hc
    exact (List.append_eq_nil_iff.1 (hl.symm.trans hnil)).2
  · exact .inr hnil

/-- The parser of a text that is at the end of the file as soon as an argument
    runs into the end of the text. -/
def feofParser (W : WordChars) : Parser TextState :=
  { textParser W with
    parserNextArgument := fun s =>
      let r := s.readArgument W
      (r.1, r.2.1, { r.2.2 with off := r.2.2.off || r.2.2.unread.isEmpty }) }

theorem feofParser_documented (W : WordChars) : Documented (feofParser W) W TextState.unread :=
  { textParser_documented W with
    nextArg := (textParser_documented W).nextArg
    nextArg_line := (textParser_documented W).nextArg_line }

theorem feofParser_progress (W : WordChars) : Progress (feofParser W) TextState.unread :=
  { textParser_progress W with
    nextArgument := (textParser_progress W).nextArgument
    argument := (textParser_progress W).argument }

namespace TextState
variable {W : WordChars}

theorem skip_off {s : TextState} {d : Char} {l : List Char} (h : s.skip.unread = d :: l) :
    s.skip.off = s.off := by
  show (s.off || s.skip.unread.isEmpty) = s.off
  rw [h]; exact Bool.or_false _

theorem skip_ends (s : TextState) : Ends (feofParser W) unread s s.skip := by
  refine ⟨fun h => ?_, fun h => ?_⟩
  · show (s.off || _) = true
    rw [show s.off = true from h, Bool.true_or]
  · rcases hs : s.skip.unread with _ | ⟨d, ds⟩
    · exact .inr rfl
    · exact .inl ((skip_off hs).symm.trans h)

theorem op_ends (c : Char) (s : TextState) : Ends (feofParser W) unread s (s.op c).2 := by
  have hskip := skip_ends (W := W) s
  rw [op]
  split
  · next h => rw [h] at hskip; exact hskip
  · next d ds off h =>
    have hoff := skip_off (s := s) (d := d) (l := ds) (by rw [h])
    rw [h] at hskip hoff
    split_ifs
    · exact ⟨fun hend => hoff.trans hend, fun hend => .inl (hoff.symm.trans hend)⟩
    · exact hskip

theorem readWord_ends (s : TextState) : Ends (feofParser W) unread s (s.readWord W).2 := by
  have hskip := skip_ends (W := W) s
  rw [readWord]
  split
  · exact hskip
  · refine hskip.trans (dropWhile_consumes (word_newline W) _) ⟨id, fun hend => .inl hend⟩

theorem readArgument_ends (s : TextState) :
    Ends (feofParser W) unread s (s.readArgument W).2.2 := by
  have hin := op_ends (W := W) '<' s
  rw [readArgument]
  split
  · next s₁ h => rw [h] at hin; exact hin.trans (readWord_consumes s₁).1 (readWord_ends s₁)
  · next s₁ h =>
    rw [h] at hin
    have hout := hin.trans (op_consumes (c := '>') (by decide) s₁).1 (op_ends '>' s₁)
    split
    · next s₂ h₂ => rw [h₂] at hout; exact hout.trans (readWord_consumes s₂).1 (readWord_ends s₂)
    · next s₂ h₂ => rw [h₂] at hout; exact hout.trans (readWord_consumes s₂).1 (readWord_ends s₂)

/-- If no word is read and no token is left, the text is at its end. -/
theorem readWord_none (s : TextState) : (s.readWord W).1 = none →
    toks W (s.readWord W).2.unread = [] → (s.readWord W).2.unread = [] := by
  rw [readWord]
  split
  · intro _ htoks
    rw [skip_toks] at htoks
    rcases skip_cases W s with ⟨hs, -⟩ | ⟨d, ds, -, -, ht⟩ | ⟨d, ds, -, -, ht⟩
    · exact hs
    · rw [ht] at htoks; cases htoks
    · rw [ht] at htoks; cases htoks
  · intro h; cases h

theorem readArgument_none (s : TextState) : (s.readArgument W).1 = none →
    toks W (s.readArgument W).2.2.unread = [] → (s.readArgument W).2.2.unread = [] := by
  rw [readArgument]
  split
  · exact readWord_none _
  · split
    · exact readWord_none _
    · exact readWord_none _

theorem op_found {c : Char} {s : TextState} (h : (s.op c).1 = true) :
    (s.op c).2.off = s.off ∧
      ∃ g, (∀ d ∈ g, isBlank d = true) ∧ s.unread = g ++ c :: (s.op c).2.unread := by
  rw [op] at h ⊢
  split at h
  · cases h
  · next d ds off hs =>
    split_ifs at h ⊢ with hd
    have hunread : s.unread.dropWhile isBlank = d :: ds := congrArg TextState.unread hs
    have hoff := skip_off (s := s) (d := d) (l := ds) (by rw [hs])
    rw [hs] at hoff
    refine ⟨hoff, s.unread.takeWhile isBlank, fun e he => List.all_eq_true.1 List.all_takeWhile _ he,
      ?_⟩
    rw [← hd]
    conv_lhs => rw [← List.takeWhile_append_dropWhile (p := isBlank) (l := s.unread), hunread]

end TextState

theorem feofParser_meetsEnd (W : WordChars) :
    MeetsEnd (feofParser W) W TextState.unread false where
  nextArgument s := by
    refine ⟨fun h => ?_, fun h => ?_⟩
    · exact Bool.or_eq_true_iff.2 (.inl (s.readArgument_ends.stays h))
    · rcases Bool.or_eq_true_iff.1 h with h | hnil
      · exact s.readArgument_ends.nothing h
      · exact .inr (List.isEmpty_iff.1 hnil)
  opBackground s := s.op_ends '&'
  skipBlanks := TextState.skip_ends
  opPipe s := s.op_ends '|'
  argument s h htoks := by
    have hnil := s.readArgument_none h htoks
    exact Bool.or_eq_true_iff.2 (.inr (List.isEmpty_iff.2 hnil))
  ampersand s h := (TextState.op_found h).2
  eager s h hoff _ := (TextState.op_found h).1.trans hoff

/-- The line `ls`, with its newline. -/
theorem noneAtEof_newline :
    NoneAtEof (feofParser .all) 5 { parser := { unread := ['l', 's', '\n'] } } :=
  (noneAtEof_iff (feofParser_documented .all) (feofParser_progress .all) (feofParser_meetsEnd .all)
    _ rfl (by decide)).2 ⟨by decide, nofun⟩

/-- The text `ls` without a newline: the end is met behind the first argument. -/
theorem not_noneAtEof_ls :
    ¬ NoneAtEof (feofParser .all) 4 { parser := { unread := ['l', 's'] } } := by
  rintro ⟨r, w', hrun, hused⟩
  have hrun' : ∃ r w', parseCommands (feofParser .all) 4 { parser := { unread := ['l', 's'] } } =
      .ok (r, w') ∧ (w'.parserGarbage (feofParser .all)).2.usedAtEof ≠ [] := ⟨_, _, rfl, by decide⟩
  obtain ⟨r₁, w₁, hrun₁, hne⟩ := hrun'
  rw [hrun] at hrun₁
  cases hrun₁
  exact hne hused

end OSLabs.Shell
