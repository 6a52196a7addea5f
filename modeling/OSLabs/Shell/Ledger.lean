/-
  The ledger of the commands that parse_pipeline makes.

  The loop of parse_pipeline reads one command ahead of the one it pushes.  When
  no pipe sign follows, the command ahead is dropped without a call of
  scommand_destroy; only a redirection without a file ends the loop with every
  command accounted for (`balanced_iff`).
-/
import OSLabs.Shell.ParsingSafety
import Mathlib.Data.List.Nodup

namespace OSLabs.Shell

variable {σ : Type}

/-- The addresses of the commands in what parse_pipeline returns. -/
def elements : Option Pipeline → List ℕ
  | some p => p.pipe.map Scommand.addr
  | none => []

/-- **Between `w` and `w'` the ledger is balanced**: each command that was made
    is in the result or was destroyed once, and not both. -/
structure Balanced (w w' : World σ) (result : Option Pipeline) (destroyed : List ℕ) : Prop where
  ledger : w'.destroyed = w.destroyed ++ destroyed
  once : ∀ a, w.news ≤ a → a < w'.news → (elements result).count a + destroyed.count a = 1
  total : w'.news = w.news + destroyed.length + (elements result).length

theorem scommandsFrom_addr (a : ℕ) (cmds : List (List Arg)) :
    (scommandsFrom a cmds).map Scommand.addr = List.range' a cmds.length := by
  induction cmds generalizing a with
  | nil => rfl
  | cons args cmds ih => rw [scommandsFrom, List.map_cons, ih, scommandOf_addr]; rfl

/-- The commands before a faulty last one. -/
theorem kept_addr (a : ℕ) (first : List Arg) (rest : List (List Arg)) :
    (kept true (scommandsFrom a (first :: rest))).map Scommand.addr =
      List.range' a rest.length := by
  rw [kept, if_pos rfl, List.map_dropLast, scommandsFrom_addr, List.length_cons,
    List.range'_concat, List.dropLast_concat]

section
variable {P : Parser σ} {W : WordChars} {unread : σ → List Char}

/-- **The ledger of parse_pipeline is balanced exactly on the lines whose
    commands end at a `<` or `>` without a file.** -/
theorem balanced_iff (hP : Documented P W unread) (w : World σ) {fuel : ℕ}
    (hf : (toks W (unread w.parser)).length + 2 ≤ fuel) {result : Option Pipeline} {w' : World σ}
    (h : parsePipeline P fuel w = .ok (result, w')) :
    (∃ destroyed, Balanced w w' result destroyed) ↔ (w.line W unread).dangling = true := by
  set L := w.line W unread
  have hw : toks W (unread w.parser) = L.toks := (Line.toks_read _).symm
  rw [hw] at hf
  by_cases hbad : L.faulty = true ∧ L.garbage = true
  · rw [parsePipeline_abort hP hf hw hbad.1 hbad.2] at h
    cases h
  obtain ⟨w₁, hrun, -, hnews, hdestroyed, -⟩ := parsePipeline_read hP hf hw hbad
  rw [hrun] at h
  cases h
  cases hd : L.dangling with
  | true =>
    have hfaulty : L.faulty = true := by rw [Line.faulty, hd, Bool.true_or]
    have hacc : L.accepted = false := by rw [Line.accepted, hfaulty]; rfl
    simp only [hd, hacc, Bool.false_eq_true, if_true, if_false, Line.commands, kept_addr,
      List.append_assoc] at hnews hdestroyed ⊢
    have hperm : ([w.news + L.rest.length] ++ List.range' w.news L.rest.length).Perm
        (List.range' w.news (L.rest.length + 1)) := by
      rw [List.range'_concat, Nat.one_mul]
      exact List.perm_append_comm
    refine ⟨fun _ => trivial, fun _ => ⟨_, hdestroyed, fun a ha ha' => ?_, ?_⟩⟩
    · have hmem : a ∈ List.range' w.news (L.rest.length + 1) :=
        List.mem_range'_1.2 ⟨ha, by omega⟩
      rw [hperm.count_eq, List.count_eq_one_of_mem List.nodup_range' hmem]; rfl
    · rw [hperm.length_eq, List.length_range', hnews]; rfl
  | false =>
    simp only [hd, Bool.false_eq_true, if_false, List.append_nil] at hnews hdestroyed ⊢
    refine iff_of_false (fun hsome => ?_) id
    obtain ⟨d, hbal⟩ := hsome
    -- one command more was made than there are in the result or destroyed
    have htotal := hbal.total
    have hdl := congrArg List.length (hbal.ledger.symm.trans hdestroyed)
    cases hacc : L.accepted <;>
      simp only [hacc, elements, kept, Bool.false_eq_true, if_true, if_false, scommandsFrom_addr,
        Line.commands, List.length_append,
        List.length_range', List.length_cons, List.length_nil] at htotal hdl <;> omega

end

/-- The line `ls <`: its command is destroyed, and NULL is returned. -/
theorem balanced_dangling : ∃ (w' : World TextState) (destroyed : List ℕ),
    parsePipeline (textParser .all) 6
      { parser := { unread := ['l', 's', ' ', '<', '\n'] } } = .ok (none, w') ∧
    Balanced { parser := { unread := ['l', 's', ' ', '<', '\n'] } } w' none destroyed := by
  obtain ⟨w', h⟩ : ∃ w', parsePipeline (textParser .all) 6
      { parser := { unread := ['l', 's', ' ', '<', '\n'] } } = .ok (none, w') := ⟨_, rfl⟩
  obtain ⟨d, hd⟩ := (balanced_iff (textParser_documented .all) _ (by decide) h).2 (by decide)
  exact ⟨w', d, h, hd⟩

/-- The line `ls`: two commands are made, one is returned, and none destroyed. -/
theorem not_balanced_ls : ∃ (result : Option Pipeline) (w' : World TextState),
    parsePipeline (textParser .all) 5 { parser := { unread := ['l', 's', '\n'] } } =
      .ok (result, w') ∧ w'.news = 2 ∧ w'.destroyed = [] ∧ (elements result).length = 1 ∧
    ∀ d, ¬ Balanced { parser := { unread := ['l', 's', '\n'] } } w' result d := by
  refine ⟨_, _, rfl, rfl, rfl, rfl, fun d hd => ?_⟩
  have hnil : [] = d := hd.ledger
  subst hnil
  exact absurd hd.total (by decide)

end OSLabs.Shell
