/-
  When parsing keeps within the preconditions of command.c.

  Three errors make parse_pipeline give up: a redirection without a file, a
  lone command without words, and garbage behind the commands.  The first two
  are `Line.faulty`; each error destroys the pipeline, so a faulty line with
  garbage destroys it twice (`parsePipeline_abort`).  On all other lines every
  call is within its precondition (`parsesSafely_iff`).
-/
import OSLabs.Shell.ParsingSpec
import OSLabs.Shell.TextParser

namespace OSLabs.Shell

variable {σ : Type}

/-- The line that a world starts with. -/
def World.line (W : WordChars) (unread : σ → List Char) (w : World σ) : Line :=
  .read (toks W (unread w.parser))

/-- parse_pipeline returns: no assertion of command.c fails on the way.  The
    pipeline is destroyed once at most, and NULL is returned if the line has an
    error. -/
def ParsesSafely (P : Parser σ) (W : WordChars) (unread : σ → List Char) (fuel : ℕ) (w : World σ) :
    Prop :=
  ∃ result w', parsePipeline P fuel w = .ok (result, w') ∧
    w'.pipelinesDestroyed ≤ w.pipelinesDestroyed + 1 ∧
    ((w.line W unread).accepted = false → result = none)

section
variable {P : Parser σ} {W : WordChars} {unread : σ → List Char}

/-- **Parsing is safe exactly on the lines that are not both faulty and
    followed by garbage.** -/
theorem parsesSafely_iff (hP : Documented P W unread) (w : World σ) {fuel : ℕ}
    (hf : (toks W (unread w.parser)).length + 2 ≤ fuel) :
    ParsesSafely P W unread fuel w ↔
      ¬ ((w.line W unread).faulty = true ∧ (w.line W unread).garbage = true) := by
  have hw : toks W (unread w.parser) = (w.line W unread).toks := (Line.toks_read _).symm
  rw [hw] at hf
  constructor
  · rintro ⟨result, w', h, -⟩ ⟨hl, hg⟩
    rw [parsePipeline_abort hP hf hw hl hg] at h
    cases h
  · intro hl
    obtain ⟨w', h, -, -, -, hd⟩ := parsePipeline_read hP hf hw hl
    refine ⟨_, w', h, ?_, fun ha => by rw [ha]; rfl⟩
    rw [hd]; split_ifs <;> omega

end

/-- The line `ls | wc`. -/
theorem parsesSafely_pipe :
    ParsesSafely (textParser .all) .all TextState.unread 6
      { parser := { unread := ['l', 's', '|', 'w', 'c', '\n'] } } :=
  (parsesSafely_iff (textParser_documented .all) _ (by decide)).2 (by decide)

/-- The line `<|`: its redirection has no file, and the pipe sign is garbage. -/
theorem not_parsesSafely_dangling :
    ¬ ParsesSafely (textParser .all) .all TextState.unread 6
      { parser := { unread := ['<', '|', '\n'] } } := by
  rintro ⟨result, w', h, -⟩
  have : parsePipeline (textParser .all) 6 { parser := { unread := ['<', '|', '\n'] } } =
    .error (.assertion .pipelineDestroy) := rfl
  rw [this] at h
  cases h

end OSLabs.Shell
