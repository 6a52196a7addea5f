/-
  A session of the shell with its children.

  The shell runs one pipeline after the other, and its children terminate when
  they like.  While it ignores SIGCHLD, a child that terminates is gone at once;
  otherwise it is a zombie until waitpid returns it.  A call of execute_pipeline
  makes the calls of its run, one after the other (`Job.start`).

  `Inv` tells which children there can be: with the default disposition only
  those that the shell has yet to wait for, and no zombie with the other one.
-/
import Mathlib.Logic.Relation
import OSLabs.Shell.Keeping

namespace OSLabs.Shell

/-- A child in the table of processes: the number of its job, and if it has
    terminated, but has not been reaped. -/
structure Child where
  job : ℕ
  zombie : Bool

/-- A call of execute_pipeline: the calls that it has yet to make, and the children it has
    forked.  The shell becomes `proc` when it returns. -/
structure Job where
  apipe : Pipeline
  proc : Proc
  calls : List SysCall
  forked : List ℕ

/-- The call of execute_pipeline by the shell `p`. -/
def Job.start (env : Env) (apipe : Pipeline) (p : Proc) : Job where
  apipe := apipe
  proc := (executePipeline env (some apipe) p).proc
  calls := (executePipeline env (some apipe) p).calls
  forked := []

/-- The children that are forked by these calls. -/
def forksOf : List SysCall → List ℕ
  | [] => []
  | .fork pid :: cs => pid :: forksOf cs
  | _ :: cs => forksOf cs

/-- The children that are waited for. -/
def waitsOf : List SysCall → List ℕ
  | [] => []
  | .waitpid pid :: cs => pid :: waitsOf cs
  | _ :: cs => waitsOf cs

def Job.waits (j : Job) : List ℕ := waitsOf j.calls

/-- The call is in its last loop. -/
def Job.Waiting (j : Job) : Prop := ∀ c ∈ j.calls, ∃ pid, c = .waitpid pid

/-- The shell, the number of jobs so far, the job that is run if the shell is
    not at its prompt, and the children by their pids. -/
structure Session where
  shell : Proc
  count : ℕ
  job : Option Job
  table : ℕ → Option Child

namespace Session

def initial (p : Proc) : Session where
  shell := p
  count := 0
  job := none
  table _ := none

def setJob (s : Session) (j : Job) : Session := { s with job := some j }

def setChild (s : Session) (pid : ℕ) (c : Option Child) : Session :=
  { s with table := Function.update s.table pid c }

theorem setChild_table (s : Session) (pid : ℕ) (c : Option Child) (x : ℕ) :
    (s.setChild pid c).table x = if x = pid then c else s.table x := Function.update_apply ..

/-- A step of the shell: it makes the next call of its job. -/
inductive ShellStep (s : Session) : Session → Prop
  | start {env : Env} {apipe : Pipeline} {waited : List ℕ} : s.job = none → Succeeds env apipe →
      (executePipeline env (some apipe) s.shell).ending = .returned waited →
      ShellStep s { s with count := s.count + 1, job := some (Job.start env apipe s.shell) }
  | signal {j : Job} {cs : List SysCall} : s.job = some j → j.calls = .signal :: cs →
      ShellStep s { s with
        shell := { s.shell with sigchldIgnored := true }, job := some { j with calls := cs } }
  | fork {j : Job} {pid : ℕ} {cs : List SysCall} : s.job = some j → j.calls = .fork pid :: cs →
      s.table pid = none →
      ShellStep s ((s.setChild pid (some ⟨s.count, false⟩)).setJob
        { j with calls := cs, forked := j.forked ++ [pid] })
  -- it blocks while the child runs, and reaps it if it is a zombie
  | waitpid {j : Job} {pid : ℕ} {cs : List SysCall} : s.job = some j →
      j.calls = .waitpid pid :: cs → (∀ c, s.table pid = some c → c.zombie = true) →
      ShellStep s ((s.setChild pid none).setJob { j with calls := cs })
  | returns {j : Job} : s.job = some j → j.calls = [] →
      ShellStep s { s with shell := j.proc, job := none }

inductive Step (s : Session) : Session → Prop
  | shell {s' : Session} : ShellStep s s' → Step s s'
  | terminate {pid n : ℕ} : s.table pid = some ⟨n, false⟩ →
      Step s (s.setChild pid (if s.shell.sigchldIgnored then none else some ⟨n, true⟩))

inductive Reach (p : Proc) : Session → Prop
  | initial : Reach p (initial p)
  | step {s s' : Session} : Reach p s → Step s s' → Reach p s'

end Session

/-! ## What a call of execute_pipeline does -/

/-- The call `b` may come behind the call `a`. -/
def SysCall.Precedes : SysCall → SysCall → Prop
  | _, .signal => False
  | .waitpid _, .fork _ => False
  | _, _ => True

theorem forksOf_append (cs cs' : List SysCall) :
    forksOf (cs ++ cs') = forksOf cs ++ forksOf cs' := by
  induction cs with
  | nil => rfl
  | cons c cs ih => cases c <;> simp [forksOf, ih]

theorem waitsOf_append (cs cs' : List SysCall) :
    waitsOf (cs ++ cs') = waitsOf cs ++ waitsOf cs' := by
  induction cs with
  | nil => rfl
  | cons c cs ih => cases c <;> simp [waitsOf, ih]

theorem forksOf_map (pids : List ℕ) :
    forksOf (pids.map .fork) = pids ∧ waitsOf (pids.map .fork) = [] := by
  induction pids with
  | nil => exact ⟨rfl, rfl⟩
  | cons pid pids ih => exact ⟨congrArg _ ih.1, ih.2⟩

theorem waitsOf_map (pids : List ℕ) :
    forksOf (pids.map .waitpid) = [] ∧ waitsOf (pids.map .waitpid) = pids := by
  induction pids with
  | nil => exact ⟨rfl, rfl⟩
  | cons pid pids ih => exact ⟨ih.1, congrArg _ ih.2⟩

/-- Behind a call of waitpid there are only such. -/
theorem waiting_of_head {pid : ℕ} {cs : List SysCall}
    (h : (SysCall.waitpid pid :: cs).Pairwise SysCall.Precedes) :
    ∀ c ∈ SysCall.waitpid pid :: cs, ∃ pid, c = .waitpid pid := by
  obtain ⟨hbehind, -⟩ := List.pairwise_cons.1 h
  intro c hc
  rcases List.mem_cons.1 hc with rfl | hc
  · exact ⟨pid, rfl⟩
  · cases c with
    | waitpid pid => exact ⟨pid, rfl⟩
    | _ => exact (hbehind _ hc).elim

theorem signal_notMem_tail {c : SysCall} {cs : List SysCall}
    (h : (c :: cs).Pairwise SysCall.Precedes) : SysCall.signal ∉ cs := by
  intro hmem
  have := (List.pairwise_cons.1 h).1 _ hmem
  cases c <;> exact this

/-- The calls of the last loop. -/
theorem calls_of_waiting {cs : List SysCall} (h : ∀ c ∈ cs, ∃ pid, c = .waitpid pid) :
    cs = (waitsOf cs).map .waitpid := by
  induction cs with
  | nil => rfl
  | cons c cs ih =>
    obtain ⟨pid, rfl⟩ := h c (List.mem_cons_self ..)
    exact congrArg _ (ih fun c hc => h c (List.mem_cons_of_mem _ hc))

theorem forksOf_waiting {cs : List SysCall} (h : ∀ c ∈ cs, ∃ pid, c = .waitpid pid) :
    forksOf cs = [] ∧ SysCall.signal ∉ cs := by
  rw [calls_of_waiting h]
  exact ⟨(waitsOf_map _).1, by simp⟩

/-- A pipeline that returns completes, or it is a lone builtin, which makes no
    child. -/
theorem returned_cases {env : Env} {apipe : Pipeline} {p : Proc} {waited : List ℕ}
    (hs : Succeeds env apipe)
    (h : (executePipeline env (some apipe) p).ending = .returned waited) :
    builtinAlone (some apipe) = .ok false ∧ Completes env apipe p ∨
    builtinAlone (some apipe) = .ok true ∧ (executePipeline env (some apipe) p).calls = [] ∧
      (executePipeline env (some apipe) p).proc.sigchldIgnored = p.sigchldIgnored := by
  cases hb : builtinAlone (some apipe) with
  | error f => rw [executePipeline_fault hb] at h; cases h
  | ok b =>
    cases b with
    | false => exact .inl ⟨rfl, hs.completes hb p⟩
    | true =>
      obtain ⟨sc, hsc⟩ := builtinAlone_true hb
      rw [executePipeline_alone hsc hb] at h ⊢
      rcases builtinRun_cases env (some sc) p with ⟨p', hp', -, hign⟩ | ⟨e, he, hend⟩
      · rw [hp']
        exact .inr ⟨rfl, rfl, hign⟩
      · rw [he] at h
        exact absurd h (hend waited)

/-- How a job starts. -/
structure Job.Starts (p : Proc) (j : Job) : Prop where
  forked : j.forked = []
  order : j.calls.Pairwise SysCall.Precedes
  proc : j.proc.sigchldIgnored = true ↔ p.sigchldIgnored = true ∨ .signal ∈ j.calls
  signal : .signal ∈ j.calls → j.apipe.waiting = false
  length : builtinAlone (some j.apipe) = .ok false →
    (forksOf j.calls).length = j.apipe.pipe.length
  waits : j.waits = if j.apipe.waiting then forksOf j.calls else []
  default : .signal ∉ j.calls → j.apipe.waiting = true ∨ forksOf j.calls = []

/-- The calls of a pipeline that completes. -/
theorem Completes.calls {env : Env} {apipe : Pipeline} {p : Proc} (h : Completes env apipe p)
    (hb : builtinAlone (some apipe) = .ok false) : ∃ pids : List ℕ,
    pids.length = apipe.pipe.length ∧
    (executePipeline env (some apipe) p).calls = (if apipe.waiting then [] else [.signal]) ++
      (pids.map .fork ++ (if apipe.waiting then pids else []).map .waitpid) := by
  refine ⟨(executePipeline env (some apipe) p).children.map Prod.fst, ?_, ?_⟩
  · rw [List.length_map, h.children]
  · rw [executePipeline_calls hb p h.ending, List.map_map]; rfl

theorem Job.start_starts {env : Env} {apipe : Pipeline} {p : Proc} {waited : List ℕ}
    (hs : Succeeds env apipe)
    (h : (executePipeline env (some apipe) p).ending = .returned waited) :
    (Job.start env apipe p).Starts p := by
  rcases returned_cases hs h with ⟨hb, hc⟩ | ⟨hb, hnil, hign⟩
  · obtain ⟨pids, hlen, hcalls⟩ := hc.calls hb
    have hproc := hc.keeps.sigchldIgnored
    change (Job.start env apipe p).calls = _ at hcalls
    obtain ⟨hforks, hwaits⟩ := forksOf_map pids
    obtain ⟨hforks', hwaits'⟩ := waitsOf_map pids
    cases hw : apipe.waiting with
    | true =>
      rw [hw] at hproc hcalls
      simp only [if_true, List.nil_append] at hcalls
      have hfs : forksOf (Job.start env apipe p).calls = pids := by
        rw [hcalls, forksOf_append, hforks, hforks', List.append_nil]
      have hsig : .signal ∉ (Job.start env apipe p).calls := by
        rw [hcalls]; simp
      constructor
      case forked => rfl
      case order =>
        rw [hcalls, List.pairwise_append]
        refine ⟨List.pairwise_map.2 (List.pairwise_of_forall fun _ _ => trivial),
          List.pairwise_map.2 (List.pairwise_of_forall fun _ _ => trivial), ?_⟩
        simp [SysCall.Precedes]
      case proc => rw [or_iff_left hsig]; exact Bool.eq_iff_iff.1 hproc
      case signal => intro h; exact absurd h hsig
      case length => intro _; rw [hfs, hlen]; rfl
      case waits =>
        show waitsOf _ = _
        rw [hfs, hcalls, waitsOf_append, hwaits, hwaits', List.nil_append]
        exact (if_pos hw).symm
      case default => intro _; exact .inl hw
    | false =>
      rw [hw] at hproc hcalls
      simp only [Bool.false_eq_true, if_false, List.map_nil, List.append_nil,
        List.singleton_append] at hcalls
      have hfs : forksOf (Job.start env apipe p).calls = pids := by rw [hcalls]; exact hforks
      have hsig : .signal ∈ (Job.start env apipe p).calls := by
        rw [hcalls]; exact List.mem_cons_self ..
      constructor
      case forked => rfl
      case order =>
        rw [hcalls, List.pairwise_cons]
        refine ⟨?_, List.pairwise_map.2 (List.pairwise_of_forall fun _ _ => trivial)⟩
        simp [SysCall.Precedes]
      case proc => exact iff_of_true hproc (.inr hsig)
      case signal => intro _; exact hw
      case length => intro _; rw [hfs, hlen]; rfl
      case waits =>
        show waitsOf _ = _
        rw [hcalls, if_neg (by rw [Job.start, hw]; decide)]
        exact hwaits
      case default => intro h; exact absurd hsig h
  · have hcalls : (Job.start env apipe p).calls = [] := hnil
    constructor
    case forked => rfl
    case order => rw [hcalls]; exact .nil
    case proc => rw [hcalls, or_iff_left (List.not_mem_nil)]; exact Bool.eq_iff_iff.1 hign
    case signal => rw [hcalls]; exact fun h => absurd h List.not_mem_nil
    case length => intro h; exact Bool.noConfusion (Except.ok.inj (hb.symm.trans h))
    case waits => rw [Job.waits, hcalls]; exact (ite_self _).symm
    case default => intro _; exact .inr (by rw [hcalls]; rfl)

/-! ## The invariant -/

namespace Session

/-- The job that is run, and the children there are: the shell waits for all
    children of a foreground job, and for all others as well while it does not
    ignore SIGCHLD. -/
structure JobInv (s : Session) (j : Job) : Prop where
  order : j.calls.Pairwise SysCall.Precedes
  proc : j.proc.sigchldIgnored = true ↔ s.shell.sigchldIgnored = true ∨ .signal ∈ j.calls
  signal : .signal ∈ j.calls → j.apipe.waiting = false ∧
    (s.shell.sigchldIgnored = false → ∀ pid, s.table pid = none)
  length : builtinAlone (some j.apipe) = .ok false →
    j.forked.length + (forksOf j.calls).length = j.apipe.pipe.length
  background : j.apipe.waiting = false → j.waits = []
  foreground : j.apipe.waiting = true → ∀ pid ∈ forksOf j.calls, pid ∈ j.waits
  default : s.shell.sigchldIgnored = false → .signal ∉ j.calls →
    j.apipe.waiting = true ∨ forksOf j.calls = []
  waits : ∀ pid ∈ j.waits, pid ∈ j.forked ∨ pid ∈ forksOf j.calls
  forked : ∀ pid ∈ j.forked, ∀ c, s.table pid = some c → c.job = s.count
  own : j.apipe.waiting = true → ∀ pid c, s.table pid = some c → c.job = s.count → pid ∈ j.waits
  others : s.shell.sigchldIgnored = false → ∀ pid c, s.table pid = some c → pid ∈ j.waits

structure Inv (s : Session) : Prop where
  count : ∀ pid c, s.table pid = some c → c.job ≤ s.count
  ignored : s.shell.sigchldIgnored = true → ∀ pid c, s.table pid = some c → c.zombie = false
  prompt : s.job = none → s.shell.sigchldIgnored = false → ∀ pid, s.table pid = none
  job : ∀ j, s.job = some j → JobInv s j

variable {s s' : Session} {j : Job} {pid : ℕ} {cs : List SysCall}

theorem Inv.start (h : Inv s) (hj : s.job = none) (hs : j.Starts s.shell) :
    Inv { s with count := s.count + 1, job := some j } := by
  constructor
  case count =>
    intro pid c hc
    exact Nat.le_succ_of_le (h.count pid c hc)
  case ignored => exact h.ignored
  case prompt => intro hnone; cases hnone
  case job =>
    rintro _ ⟨⟩
    constructor
    case order => exact hs.order
    case proc => exact hs.proc
    case signal => intro hsig; exact ⟨hs.signal hsig, h.prompt hj⟩
    case length =>
      intro hb
      rw [hs.forked, List.length_nil, Nat.zero_add]; exact hs.length hb
    case background => intro hw; rw [hs.waits, hw]; rfl
    case foreground =>
      intro hw pid hpid
      rw [hs.waits, hw]; exact hpid
    case default => intro _; exact hs.default
    case waits =>
      intro pid hpid
      rw [hs.waits] at hpid
      split_ifs at hpid
      · exact .inr hpid
      · cases hpid
    case forked =>
      intro pid hpid
      rw [hs.forked] at hpid; cases hpid
    case own =>
      intro _ pid c hc hown
      exact absurd hown (Nat.ne_of_lt (Nat.lt_succ_of_le (h.count pid c hc)))
    case others =>
      intro hign pid c hc
      rw [h.prompt hj hign pid] at hc; cases hc

/-- The call of `signal` comes before all forks. -/
theorem Inv.signal (h : Inv s) (hj : s.job = some j) (hcalls : j.calls = .signal :: cs) :
    Inv { s with
      shell := { s.shell with sigchldIgnored := true }, job := some { j with calls := cs } } := by
  have hi := h.job j hj
  obtain ⟨hw, hnone⟩ := hi.signal (hcalls ▸ List.mem_cons_self ..)
  have horder := hi.order
  have hlength := hi.length
  have hwaits := hi.waits
  have hbackground := hi.background hw
  rw [hcalls] at horder hlength hwaits
  rw [Job.waits, hcalls] at hbackground
  constructor
  case count => exact h.count
  case ignored =>
    intro _ pid c hc
    cases hign : s.shell.sigchldIgnored with
    | true => exact h.ignored hign pid c hc
    | false =>
      have hc : s.table pid = some c := hc
      rw [hnone hign] at hc; cases hc
  case prompt => intro hnone; cases hnone
  case job =>
    rintro _ ⟨⟩
    constructor
    case order => exact horder.of_cons
    case proc =>
      refine iff_of_true (hi.proc.2 (.inr ?_)) (.inl rfl)
      rw [hcalls]; exact List.mem_cons_self ..
    case signal => intro hmem; exact absurd hmem (signal_notMem_tail horder)
    case length => exact hlength
    case background => intro _; exact hbackground
    case foreground => intro htrue; rw [hw] at htrue; cases htrue
    case default => intro hfalse; cases hfalse
    case waits =>
      intro pid hpid
      have hnil : pid ∈ waitsOf cs := hpid
      rw [show waitsOf cs = [] from hbackground] at hnil; cases hnil
    case forked => exact hi.forked
    case own => intro htrue; rw [hw] at htrue; cases htrue
    case others => intro hfalse; cases hfalse

theorem Inv.fork (h : Inv s) (hj : s.job = some j) (hcalls : j.calls = .fork pid :: cs) :
    Inv ((s.setChild pid (some ⟨s.count, false⟩)).setJob
      { j with calls := cs, forked := j.forked ++ [pid] }) := by
  have hi := h.job j hj
  have horder := hi.order
  have hforks : forksOf j.calls = pid :: forksOf cs := by rw [hcalls]; rfl
  have hwaits : j.waits = waitsOf cs := by rw [Job.waits, hcalls]; rfl
  rw [hcalls] at horder
  have hsig := signal_notMem_tail horder
  have hsig' : .signal ∉ j.calls := by
    rw [hcalls]
    simpa using hsig
  have hmem : pid ∈ forksOf j.calls := hforks ▸ List.mem_cons_self ..
  have htable : ∀ {x : ℕ} {c : Child}, (s.setChild pid (some ⟨s.count, false⟩)).table x = some c →
      x = pid ∧ c = ⟨s.count, false⟩ ∨ x ≠ pid ∧ s.table x = some c := by
    intro x c hc
    rw [setChild_table] at hc
    split_ifs at hc with hx
    · exact .inl ⟨hx, (Option.some.inj hc).symm⟩
    · exact .inr ⟨hx, hc⟩
  constructor
  case count =>
    intro x c hc
    rcases htable hc with ⟨-, rfl⟩ | ⟨-, hc⟩
    · exact le_rfl
    · exact h.count x c hc
  case ignored =>
    intro hign x c hc
    rcases htable hc with ⟨-, rfl⟩ | ⟨-, hc⟩
    · rfl
    · exact h.ignored hign x c hc
  case prompt => intro hnone; cases hnone
  case job =>
    rintro _ ⟨⟩
    constructor
    case order => exact horder.of_cons
    case proc =>
      have hproc := hi.proc
      rw [or_iff_left hsig'] at hproc
      rw [or_iff_left hsig]; exact hproc
    case signal => intro hmem; exact absurd hmem hsig
    case length =>
      intro hb
      have hlen := hi.length hb
      rw [hforks, List.length_cons] at hlen
      show (j.forked ++ [pid]).length + (forksOf cs).length = j.apipe.pipe.length
      rw [List.length_append, List.length_singleton]; omega
    case background => intro hw; exact hwaits.symm.trans (hi.background hw)
    case foreground =>
      intro hw x hx
      show x ∈ waitsOf cs
      rw [← hwaits]
      exact hi.foreground hw x (hforks ▸ List.mem_cons_of_mem _ hx)
    case default =>
      intro hign _
      refine (hi.default hign hsig').imp_right fun hnil => ?_
      rw [hforks] at hnil; cases hnil
    case waits =>
      intro x hx
      rcases hi.waits x (hwaits ▸ hx) with hx | hx
      · exact .inl (List.mem_append_left _ hx)
      · rw [hforks, List.mem_cons] at hx
        rcases hx with rfl | hx
        · exact .inl (List.mem_append_right _ (List.mem_singleton_self _))
        · exact .inr hx
    case forked =>
      intro x hx c hc
      rcases htable hc with ⟨-, rfl⟩ | ⟨hne, hc⟩
      · rfl
      · rw [List.mem_append, List.mem_singleton] at hx
        exact hi.forked x (hx.resolve_right hne) c hc
    case own =>
      intro hw x c hc hown
      show x ∈ waitsOf cs
      rw [← hwaits]
      rcases htable hc with ⟨rfl, -⟩ | ⟨-, hc⟩
      · exact hi.foreground hw x hmem
      · exact hi.own hw x c hc hown
    case others =>
      intro hign x c hc
      show x ∈ waitsOf cs
      rw [← hwaits]
      rcases htable hc with ⟨rfl, -⟩ | ⟨-, hc⟩
      · rcases hi.default hign hsig' with hw | hnil
        · exact hi.foreground hw x hmem
        · rw [hnil] at hmem; cases hmem
      · exact hi.others hign x c hc

theorem Inv.waitpid (h : Inv s) (hj : s.job = some j) (hcalls : j.calls = .waitpid pid :: cs) :
    Inv ((s.setChild pid none).setJob { j with calls := cs }) := by
  have hi := h.job j hj
  have horder := hi.order
  have hwaits : j.waits = pid :: waitsOf cs := by rw [Job.waits, hcalls]; rfl
  rw [hcalls] at horder
  obtain ⟨hforks, hsig⟩ := forksOf_waiting (waiting_of_head horder)
  have hforks' : forksOf cs = [] := hforks
  rw [← hcalls] at hforks hsig
  have htable : ∀ {x : ℕ} {c : Child}, (s.setChild pid none).table x = some c →
      x ≠ pid ∧ s.table x = some c := by
    intro x c hc
    rw [setChild_table] at hc
    split_ifs at hc with hx
    exact ⟨hx, hc⟩
  -- the other children are still waited for
  have hrest : ∀ {x : ℕ}, x ≠ pid → x ∈ j.waits → x ∈ waitsOf cs := by
    intro x hx hmem
    rw [hwaits, List.mem_cons] at hmem
    exact hmem.resolve_left hx
  have hsig' := signal_notMem_tail horder
  constructor
  case count => intro x c hc; exact h.count x c (htable hc).2
  case ignored => intro hign x c hc; exact h.ignored hign x c (htable hc).2
  case prompt => intro hnone; cases hnone
  case job =>
    rintro _ ⟨⟩
    constructor
    case order => exact horder.of_cons
    case proc =>
      have hproc := hi.proc
      rw [or_iff_left hsig] at hproc
      rw [or_iff_left hsig']; exact hproc
    case signal => intro hmem; exact absurd hmem hsig'
    case length => intro hb; rw [hforks', ← hforks]; exact hi.length hb
    case background =>
      intro hw
      have hnil := hi.background hw
      rw [hwaits] at hnil; cases hnil
    case foreground =>
      intro hw x hx
      rw [hforks'] at hx; cases hx
    case default => intro _ _; exact .inr hforks'
    case waits =>
      intro x hx
      rw [hforks', ← hforks]
      exact hi.waits x (hwaits ▸ List.mem_cons_of_mem _ hx)
    case forked => intro x hx c hc; exact hi.forked x hx c (htable hc).2
    case own =>
      intro hw x c hc hown
      obtain ⟨hne, hc⟩ := htable hc
      exact hrest hne (hi.own hw x c hc hown)
    case others =>
      intro hign x c hc
      obtain ⟨hne, hc⟩ := htable hc
      exact hrest hne (hi.others hign x c hc)

theorem Inv.returns (h : Inv s) (hj : s.job = some j) (hcalls : j.calls = []) :
    Inv { s with shell := j.proc, job := none } := by
  have hi := h.job j hj
  have hproc : j.proc.sigchldIgnored = s.shell.sigchldIgnored := by
    rw [Bool.eq_iff_iff, hi.proc, hcalls, or_iff_left List.not_mem_nil]
  constructor
  case count => exact h.count
  case ignored => intro hign; exact h.ignored (hproc ▸ hign)
  case prompt =>
    intro _ hign pid
    by_contra hne
    obtain ⟨c, hc⟩ := Option.ne_none_iff_exists'.1 hne
    have hmem := hi.others (hproc ▸ hign) pid c hc
    rw [Job.waits, hcalls] at hmem; cases hmem
  case job => intro j' hj'; cases hj'

/-- A child that terminates stays with its job, if it stays at all. -/
theorem Inv.terminate {n : ℕ} (h : Inv s) (hrun : s.table pid = some ⟨n, false⟩) :
    Inv (s.setChild pid (if s.shell.sigchldIgnored then none else some ⟨n, true⟩)) := by
  set s' := s.setChild pid (if s.shell.sigchldIgnored then none else some ⟨n, true⟩)
  have htable : ∀ {x : ℕ} {c : Child}, s'.table x = some c →
      ∃ c₀, s.table x = some c₀ ∧ c₀.job = c.job := by
    intro x c hc
    rw [setChild_table] at hc
    split_ifs at hc with hx hign
    · obtain rfl := Option.some.inj hc
      exact ⟨⟨n, false⟩, hx ▸ hrun, rfl⟩
    · exact ⟨c, hc, rfl⟩
  constructor
  case count =>
    intro x c hc
    obtain ⟨c₀, hc₀, hjob⟩ := htable hc
    exact hjob ▸ h.count x c₀ hc₀
  case ignored =>
    intro (hign : s.shell.sigchldIgnored = true) x c hc
    rw [setChild_table, if_pos hign] at hc
    split_ifs at hc
    exact h.ignored hign x c hc
  case prompt =>
    intro hnone hign
    rw [h.prompt hnone hign pid] at hrun; cases hrun
  case job =>
    intro j hj
    have hi := h.job j hj
    constructor
    case order => exact hi.order
    case proc => exact hi.proc
    case signal =>
      intro hsig
      refine ⟨(hi.signal hsig).1, fun hign => ?_⟩
      rw [(hi.signal hsig).2 hign pid] at hrun; cases hrun
    case length => exact hi.length
    case background => exact hi.background
    case foreground => exact hi.foreground
    case default => exact hi.default
    case waits => exact hi.waits
    case forked =>
      intro x hx c hc
      obtain ⟨c₀, hc₀, hjob⟩ := htable hc
      exact hjob ▸ hi.forked x hx c₀ hc₀
    case own =>
      intro hw x c hc hown
      obtain ⟨c₀, hc₀, hjob⟩ := htable hc
      exact hi.own hw x c₀ hc₀ (hjob.trans hown)
    case others =>
      intro hign x c hc
      obtain ⟨c₀, hc₀, -⟩ := htable hc
      exact hi.others hign x c₀ hc₀

/-- **A step keeps the invariant.** -/
theorem Inv.step (h : Inv s) (hs : Step s s') : Inv s' := by
  cases hs with
  | shell hs =>
    cases hs with
    | start hj hok hend => exact h.start hj (Job.start_starts hok hend)
    | signal hj hcalls => exact h.signal hj hcalls
    | fork hj hcalls _ => exact h.fork hj hcalls
    | waitpid hj hcalls _ => exact h.waitpid hj hcalls
    | returns hj hcalls => exact h.returns hj hcalls
  | terminate hrun => exact h.terminate hrun

theorem Inv.of_reach {p : Proc} (h : Reach p s) : Inv s := by
  induction h with
  | initial =>
    constructor
    case count => intro pid c hc; cases hc
    case ignored => intro _ pid c hc; cases hc
    case prompt => intro _ _ pid; rfl
    case job => intro j hj; cases hj
  | step _ hs ih => exact ih.step hs

/-! ## Waiting -/

/-- **In the last loop the shell needs no step of a child**, once the children
    it waits for have terminated; the others are left alone. -/
theorem returns_of_zombies (hj : s.job = some j) (hlast : j.Waiting)
    (hzombie : ∀ pid ∈ j.waits, ∀ c, s.table pid = some c → c.zombie = true) :
    ∃ s', Relation.ReflTransGen ShellStep s s' ∧ s'.job = none ∧
      ∀ pid ∉ j.waits, s'.table pid = s.table pid := by
  obtain ⟨waits, hwaits⟩ : ∃ waits, j.waits = waits := ⟨_, rfl⟩
  have hcalls : j.calls = waits.map .waitpid := hwaits ▸ calls_of_waiting hlast
  clear hlast hwaits
  induction waits generalizing s j with
  | nil => exact ⟨_, .single (.returns hj hcalls), rfl, fun _ _ => rfl⟩
  | cons pid pids ih =>
    have hwaits : j.waits = pid :: pids := by rw [Job.waits, hcalls]; exact (waitsOf_map _).2
    have hstep := ShellStep.waitpid hj hcalls (hzombie pid (hwaits ▸ List.mem_cons_self ..))
    have hpids : waitsOf (pids.map .waitpid) = pids := (waitsOf_map _).2
    have hrest : ∀ x ∈ waitsOf (pids.map .waitpid), ∀ c, ((s.setChild pid none).setJob
        { j with calls := pids.map .waitpid }).table x = some c → c.zombie = true := by
      intro x hx c hc
      rw [hpids] at hx
      rw [setJob, setChild_table] at hc
      split_ifs at hc
      exact hzombie x (hwaits ▸ List.mem_cons_of_mem _ hx) c hc
    obtain ⟨s', hs', hnone, htable⟩ := ih (j := { j with calls := pids.map .waitpid }) rfl hrest rfl
    refine ⟨s', .head hstep hs', hnone, fun x hx => ?_⟩
    rw [hwaits, List.mem_cons, not_or] at hx
    have hx' : x ∉ waitsOf (pids.map .waitpid) := hpids.symm ▸ hx.2
    rw [htable x hx', setJob, setChild_table, if_neg hx.1]

/-- **A session.**  When a foreground pipeline returns, it has made a child for
    each of its commands, and all of them have terminated and are reaped.  Only
    a foreground pipeline calls waitpid, and for its own children only; when
    these have terminated it returns, whatever the others do.  No child is a
    zombie while the shell is at its prompt. -/
theorem session_of_reach {p : Proc} (h : Reach p s) :
    (∀ j, s.job = some j → j.apipe.waiting = true → j.Waiting → j.waits = [] →
      (builtinAlone (some j.apipe) = .ok false → j.forked.length = j.apipe.pipe.length) ∧
      ∀ pid c, s.table pid = some c → c.job ≠ s.count) ∧
    (∀ j, s.job = some j → j.Waiting → ∀ pid ∈ j.waits, j.apipe.waiting = true ∧
      pid ∈ j.forked ∧ ∀ c, s.table pid = some c → c.job = s.count) ∧
    (∀ j, s.job = some j → j.Waiting →
      (∀ pid c, s.table pid = some c → c.job = s.count → c.zombie = true) →
      ∃ s', Relation.ReflTransGen ShellStep s s' ∧ s'.job = none ∧
        ∀ pid c, s.table pid = some c → c.job ≠ s.count → s'.table pid = some c) ∧
    (s.job = none → ∀ pid c, s.table pid = some c → c.zombie = false) := by
  have hi := Inv.of_reach h
  have hown : ∀ j, s.job = some j → j.Waiting → ∀ pid ∈ j.waits, j.apipe.waiting = true ∧
      pid ∈ j.forked ∧ ∀ c, s.table pid = some c → c.job = s.count := by
    intro j hj hlast pid hpid
    have hji := hi.job j hj
    have hforked : pid ∈ j.forked := by
      refine (hji.waits pid hpid).resolve_right fun hmem => ?_
      rw [(forksOf_waiting hlast).1] at hmem; cases hmem
    refine ⟨?_, hforked, hji.forked pid hforked⟩
    by_contra hw
    rw [hji.background (by simpa using hw)] at hpid
    cases hpid
  refine ⟨fun j hj hw hlast hnil => ⟨fun hb => ?_, fun pid c hc hjob => ?_⟩, hown,
    fun j hj hlast hzombie => ?_, fun hnone pid c hc => ?_⟩
  · have hlen := (hi.job j hj).length hb
    rwa [(forksOf_waiting hlast).1] at hlen
  · have hmem := (hi.job j hj).own hw pid c hc hjob
    rw [hnil] at hmem; cases hmem
  · obtain ⟨s', hs', hnone, htable⟩ := returns_of_zombies hj hlast fun pid hpid c hc =>
      hzombie pid c hc ((hown j hj hlast pid hpid).2.2 c hc)
    refine ⟨s', hs', hnone, fun pid c hc hjob => ?_⟩
    rw [htable pid fun hpid => hjob ((hown j hj hlast pid hpid).2.2 c hc), hc]
  · cases hign : s.shell.sigchldIgnored with
    | true => exact hi.ignored hign pid c hc
    | false =>
      rw [hi.prompt hnone hign pid] at hc
      cases hc

/-- Calls that succeed, with the pids from `first + 1` on. -/
def forksFrom (first : ℕ) : Env := { Env.succeeding with fork := fun i => some (first + i) }

theorem succeeds_forksFrom (first : ℕ) (apipe : Pipeline) : Succeeds (forksFrom first) apipe :=
  ⟨fun _ _ _ => rfl, fun _ _ _ => rfl, fun _ _ => ⟨fun _ _ => rfl, fun _ _ => rfl⟩⟩

/-- The pipeline `ls | wc` behind the job `ls &`, which goes on. -/
theorem session_background : ∃ s, Reach Proc.initial s ∧ s.table 7 = some ⟨1, false⟩ ∧
    (∃ j, s.job = some j ∧ j.forked = [8, 9]) ∧ ∀ pid c, s.table pid = some c → c.job ≠ 2 := by
  have hstart := Step.shell (ShellStep.start (s := initial Proc.initial) rfl
    (succeeds_forksFrom 6 ⟨[⟨0, ["ls".toList], none, none⟩], false⟩) rfl)
  have hsignal := (Reach.initial.step hstart).step (.shell (.signal rfl rfl))
  have hfork := hsignal.step (.shell (.fork rfl rfl rfl))
  have hprompt := hfork.step (.shell (.returns rfl rfl))
  have hpipe := hprompt.step (.shell (.start rfl (succeeds_forksFrom 7
    ⟨[⟨1, ["ls".toList], none, none⟩, ⟨2, ["wc".toList], none, none⟩], true⟩) rfl))
  have hforks := (hpipe.step (.shell (.fork rfl rfl rfl))).step (.shell (.fork rfl rfl rfl))
  have hfirst := (hforks.step (@Step.terminate _ 8 2 rfl)).step
    (.shell (.waitpid rfl rfl (by intro c hc; cases hc)))
  have hlast := (hfirst.step (@Step.terminate _ 9 2 rfl)).step
    (.shell (.waitpid rfl rfl (by intro c hc; cases hc)))
  refine ⟨_, hlast, rfl, ⟨_, rfl, rfl⟩, ?_⟩
  exact ((session_of_reach hlast).1 _ rfl rfl (fun _ hc => absurd hc List.not_mem_nil) rfl).2

end Session

end OSLabs.Shell
