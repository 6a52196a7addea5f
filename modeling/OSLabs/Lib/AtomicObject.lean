/-
  Atomic objects with many clients, and implementations that behave like them.

  A client invokes an operation, the object performs it in one step, and the
  client goes on with the result.  The `log` is the sequential history of the
  object: what was performed, in order.

  `Linearized` runs an implementation next to the object: to each of its steps
  the object and its clients answer with one step or none, so that the states
  `agree` all along, and the object performs an operation only while the
  implementation is `inside` of it.
-/
import Mathlib.Logic.Function.Basic

namespace AtomicObject

/-- Where a client is with its operations. -/
inductive Phase (O R : Type) where
  | idle
  | invoked (o : O)
  | responded (r : R)
  | exited
  deriving DecidableEq, Repr

/-- Clients `T` with operations `O` and results `R`: the operations that a client
    may invoke, how it goes on with a result, and what else it may do.  They
    share the state `G`. -/
structure Clients (T O R G : Type) where
  calls : T → G → O → G → Prop
  ret : T → G → R → G
  acts : T → G → G → Prop

/-- An object with states `S`, and its clients. -/
structure State (T S O R G : Type) where
  obj : S
  phase : T → Phase O R
  user : G
  log : List (T × O × R)

variable {T S O R G I : Type} [DecidableEq T]

section
variable (K : Clients T O R G) (effect : O → S → R → S → Prop)

/-- A step of a client. -/
inductive ClientStep (α : State T S O R G) (p : T) : State T S O R G → Prop
  | invoke {o g} : α.phase p = .idle → K.calls p α.user o g →
      ClientStep α p { α with phase := Function.update α.phase p (.invoked o), user := g }
  | respond {r} : α.phase p = .responded r →
      ClientStep α p
        { α with phase := Function.update α.phase p .idle, user := K.ret p α.user r }
  | act {g} : α.phase p = .idle → K.acts p α.user g → ClientStep α p { α with user := g }
  | exit : ClientStep α p { α with phase := Function.update α.phase p .exited }

/-- The object performs the operation of a client. -/
inductive Performs (α : State T S O R G) (p : T) (o : O) : State T S O R G → Prop
  | mk {r s} : α.phase p = .invoked o → effect o α.obj r s →
      Performs α p o
        { α with obj := s, phase := Function.update α.phase p (.responded r)
                 log := α.log ++ [(p, o, r)] }

/-- A sequential history of the object. -/
inductive Legal : S → List (T × O × R) → S → Prop
  | nil {s} : Legal s [] s
  | concat {s₀ s s' log} {p : T} {o r} : Legal s₀ log s → effect o s r s' →
      Legal s₀ (log ++ [(p, o, r)]) s'

variable (step : I → Option T → I → Prop) (init : I → State T S O R G → Prop)
  (agree : I → State T S O R G → Prop) (inside : I → T → O → Prop)

/-- **Runs of an implementation next to the object.** -/
inductive Linearized : I → State T S O R G → Prop
  | init {σ α} : init σ α → agree σ α → Linearized σ α
  | stutter {σ α a σ'} : Linearized σ α → step σ a σ' → agree σ' α → Linearized σ' α
  | client {σ α p σ' α'} : Linearized σ α → step σ (some p) σ' → ClientStep K α p α' →
      agree σ' α' → Linearized σ' α'
  | perform {σ α p o σ' α'} : Linearized σ α → step σ (some p) σ' →
      Performs effect α p o α' → inside σ p o → inside σ' p o → agree σ' α' →
      Linearized σ' α'

end

section
variable {K : Clients T O R G} {effect : O → S → R → S → Prop}
  {step : I → Option T → I → Prop} {init agree : I → State T S O R G → Prop}
  {inside : I → T → O → Prop} {σ : I} {α : State T S O R G}

/-- **An invariant of the object and its clients holds in each run.** -/
theorem Linearized.invariant {P : State T S O R G → Prop} (hinit : ∀ σ α, init σ α → P α)
    (hclient : ∀ α p α', P α → ClientStep K α p α' → P α')
    (hperform : ∀ α p o α', P α → Performs effect α p o α' → P α')
    (h : Linearized K effect step init agree inside σ α) : P α := by
  induction h with
  | init hi _ => exact hinit _ _ hi
  | stutter _ _ _ ih => exact ih
  | client _ _ hc _ ih => exact hclient _ _ _ ih hc
  | perform _ _ hp _ _ _ ih => exact hperform _ _ _ _ ih hp

/-- The log of a run is a sequential history. -/
theorem Linearized.legal {s₀ : S} (hinit : ∀ σ α, init σ α → α.obj = s₀ ∧ α.log = [])
    (h : Linearized K effect step init agree inside σ α) : Legal effect s₀ α.log α.obj := by
  refine h.invariant (P := fun α => Legal effect s₀ α.log α.obj) ?_ ?_ ?_
  · intro σ α hi
    obtain ⟨hobj, hlog⟩ := hinit σ α hi
    rw [hobj, hlog]; exact .nil
  · intro α p α' hl hc
    cases hc <;> exact hl
  · rintro α p o α' hl ⟨-, he⟩
    exact .concat hl he

/-- What all clients may invoke is all that is in flight and in the log. -/
theorem Linearized.calls {P : O → Prop} (hP : ∀ p g o g', K.calls p g o g' → P o)
    (hinit : ∀ σ α, init σ α → (∀ p, α.phase p = .idle) ∧ α.log = [])
    (h : Linearized K effect step init agree inside σ α) :
    (∀ p o, α.phase p = .invoked o → P o) ∧ ∀ e ∈ α.log, P e.2.1 := by
  refine h.invariant (P := fun α => (∀ p o, α.phase p = .invoked o → P o) ∧
    ∀ e ∈ α.log, P e.2.1) ?_ ?_ ?_
  · intro σ α hi
    obtain ⟨hphase, hlog⟩ := hinit σ α hi
    refine ⟨fun p o hp => ?_, fun e he => ?_⟩
    · rw [hphase] at hp; cases hp
    · rw [hlog] at he; cases he
  · rintro α p α' ⟨hphase, hlog⟩ hc
    have hupdate : ∀ {x : Phase O R}, (∀ o, x = .invoked o → P o) →
        ∀ t o, Function.update α.phase p x t = .invoked o → P o := by
      intro x hx t o ht
      by_cases htp : t = p
      · subst htp; rw [Function.update_self] at ht; exact hx o ht
      · rw [Function.update_of_ne htp] at ht; exact hphase t o ht
    cases hc with
    | invoke _ hcall => exact ⟨hupdate fun o ho => by cases ho; exact hP _ _ _ _ hcall, hlog⟩
    | respond _ => exact ⟨hupdate nofun, hlog⟩
    | act _ _ => exact ⟨hphase, hlog⟩
    | exit => exact ⟨hupdate nofun, hlog⟩
  · rintro α p o α' ⟨hphase, hlog⟩ ⟨ho, -⟩
    refine ⟨fun t o' ht => ?_, fun e he => ?_⟩
    · by_cases htp : t = p
      · subst htp; simp at ht
      · simp only [Function.update_of_ne htp] at ht; exact hphase t o' ht
    · rcases List.mem_append.1 he with he | he
      · exact hlog e he
      · obtain rfl := List.mem_singleton.1 he
        exact hphase p o ho

end

end AtomicObject
