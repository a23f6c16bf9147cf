import CycleCheck.Proofs.Scenario.Order
import CycleCheck.Proofs.Scenario.Unlogged
import CycleCheck.Proofs.Scenario.Verdict
import CycleCheck.Proofs.Solver.Interleaving
import CycleCheck.Scenario.Run
import Mathlib.Algebra.BigOperators.Group.Finset.Basic
import Mathlib.Algebra.Order.BigOperators.Group.Finset
import Mathlib.Logic.Relation

/-!
Parallel runs. Checks that run at the same time share a cache, so that one may be answered by a
verdict that another one asked for. As long as the answers of the backend depend on the formula
only, every schedule ends with the results that the scenarios have on their own. The orders in which
the entries of maps are met belong to the schedule; they matter only where a map has two misplaced
addresses, one of which is reported.
-/

namespace CycleCheck

open Solver Scenario

variable {σ : Type} {b : Backend σ} {ctx : Context} {answer : Formula → Except SolverError Verdict}
  {asked : Formula → Prop}

/-! ## A backend that depends on the formula only -/

/-- In a context that is not done, the answers are a function of the formula up to comments. -/
def Solver.Backend.Answers (b : Backend σ) (answer : Formula → Except SolverError Verdict) : Prop :=
  ∀ (ctx : Context) (q : Question) (state : σ), ctx.done = false →
    (b.check ctx q state).1 = answer q.formula.withoutComments

/-- Of some formulas, those with the same digest are the same up to comments, or have the same
answer all the same. -/
def ToldApart (asked : Formula → Prop) (answer : Formula → Except SolverError Verdict) : Prop :=
  ∀ f g, asked f → asked g → f.digest = g.digest →
    f.withoutComments = g.withoutComments ∨ answer f.withoutComments = answer g.withoutComments

theorem ToldApart.answer_eq (apart : ToldApart asked answer) {f g : Formula} (hf : asked f)
    (hg : asked g) (h : f.digest = g.digest) :
    answer f.withoutComments = answer g.withoutComments :=
  (apart f g hf hg h).elim (congrArg answer) id

/-- A call has come as far as it can with an answer. -/
def Solver.Phase.Fits (x : Except SolverError Verdict) : Phase → Prop
  | .asked | .missed => True
  | .answered v => x = .ok v
  | .returned r => x = r

/-- All verdicts of a cache are answers for formulas that are asked. -/
def Solver.Cache.Fits (asked : Formula → Prop) (answer : Formula → Except SolverError Verdict)
    (c : Cache σ) : Prop :=
  ∀ (d : UInt64) v, c.table.verdicts[d]? = some v →
    ∃ f, asked f ∧ f.digest = d ∧ answer f.withoutComments = .ok v

/-- No step of a call takes a wrong verdict from the cache or puts one in. -/
theorem Solver.Backend.Answers.advance (hb : b.Answers answer) (hctx : ctx.done = false)
    (apart : ToldApart asked answer) {q : Question} (hq : asked q.formula) {phase : Phase}
    {c : Cache σ} (hphase : phase.Fits (answer q.formula.withoutComments)) (hc : c.Fits asked answer) :
    (b.advance ctx q phase c).1.Fits (answer q.formula.withoutComments) ∧
      (b.advance ctx q phase c).2.Fits asked answer := by
  cases phase with
  | asked =>
    cases hfound : c.table.verdicts[q.digest]? with
    | none =>
      simp only [Backend.advance, VerdictTable.lookup, hfound]
      exact ⟨trivial, hc⟩
    | some v =>
      simp only [Backend.advance, VerdictTable.lookup, hfound]
      obtain ⟨f, hf, hdigest, hanswer⟩ := hc _ _ hfound
      rw [q.digest_eq] at hdigest
      exact ⟨by rw [← apart.answer_eq hf hq hdigest]; exact hanswer, hc⟩
  | missed =>
    have hanswer := hb ctx q c.inner hctx
    simp only [Backend.advance]
    generalize b.check ctx q c.inner = r at hanswer
    obtain ⟨_ | v, inner⟩ := r
    · exact ⟨hanswer.symm, hc⟩
    · exact ⟨hanswer.symm, hc⟩
  | answered v =>
    refine ⟨hphase, fun d u hu => ?_⟩
    simp only [Backend.advance, VerdictTable.store, Std.HashMap.getElem?_insert, beq_iff_eq] at hu
    split_ifs at hu with hd
    · cases hu
      exact ⟨q.formula, hq, by rw [← hd, q.digest_eq], hphase⟩
    · exact hc d u hu
  | returned r => exact ⟨hphase, hc⟩

/-- A call that nothing comes in between. -/
theorem Solver.Backend.Answers.cached (hb : b.Answers answer) (hctx : ctx.done = false)
    (apart : ToldApart asked answer) {q : Question} (hq : asked q.formula) {c : Cache σ}
    (hc : c.Fits asked answer) :
    (b.cached.check ctx q c).1 = answer q.formula.withoutComments ∧
      (b.cached.check ctx q c).2.Fits asked answer := by
  let next := fun p : Phase × Cache σ => b.advance ctx q p.1 p.2
  have hiterate : ∀ n, ((next^[n] (.asked, c)).1.Fits (answer q.formula.withoutComments)) ∧
      (next^[n] (.asked, c)).2.Fits asked answer := by
    intro n
    induction n with
    | zero => exact ⟨trivial, hc⟩
    | succ n ih =>
      rw [Function.iterate_succ_apply']
      exact hb.advance hctx apart hq ih.1 ih.2
  have hthree := hiterate 3
  rw [b.iterate_advance ctx q c] at hthree
  exact ⟨hthree.1.symm, hthree.2⟩

/-! ## Checks of scenarios -/

variable {options : ScenarioOptions} {order : MapOrder}

/-- The formulas that are put to the backend in a check of a scenario. The goal is only negated if
there is a verdict on the goal itself. -/
inductive Scenario.Asks (s : Scenario) (options : ScenarioOptions)
    (answer : Formula → Except SolverError Verdict) : Formula → Prop where
  | goal {order : MapOrder} {setup : Formula} {goal : Term}
      (compiled : s.compiled options order = .ok (setup, goal)) :
      s.Asks options answer (query setup goal true)
  | negation {order : MapOrder} {setup : Formula} {goal : Term} {v : Verdict}
      (compiled : s.compiled options order = .ok (setup, goal))
      (first : answer (query setup goal true).withoutComments = .ok v) :
      s.Asks options answer (query setup goal false)

/-- A formula that is put to the backend in the check of one of many scenarios. -/
def AskedBy (scenarios : List Scenario) (options : ScenarioOptions)
    (answer : Formula → Except SolverError Verdict) (f : Formula) : Prop :=
  ∃ s ∈ scenarios, s.Asks options answer f

/-- What a check comes to if the backend depends on the formula only. -/
def Scenario.verdict (s : Scenario) (options : ScenarioOptions)
    (answer : Formula → Except SolverError Verdict) (order : MapOrder) : Except CheckError Unit :=
  match s.compiled options order with
  | .error e => .error (.scenario e)
  | .ok (setup, goal) =>
      match answer (query setup goal true).withoutComments with
      | .error e => .error (.solver e)
      | .ok holds =>
          match answer (query setup goal false).withoutComments with
          | .error e => .error (.solver e)
          | .ok fails => outcome s.name holds fails

theorem Scenario.compiled_of_error {s : Scenario} {log : Log} {e : ScenarioError}
    (h : s.compile options log order = .error e) : s.compiled options order = .error e := by
  rw [← s.map_compile options log, h]
  rfl

theorem Scenario.compiled_of_ok {s : Scenario} {log : Log} {sys : Machine} {goal : Term}
    (h : s.compile options log order = .ok (sys, goal)) :
    s.compiled options order = .ok (sys.formula, goal) := by
  rw [← s.map_compile options log, h]
  rfl

/-- The result that is recorded for a check. -/
def CheckResult.of (s : Scenario) (r : Except CheckError Unit) : CheckResult :=
  ⟨s, match r with
    | .ok () => none
    | .error e => some e⟩

/-- The result of a check of a scenario in a state. -/
def Scenario.result (s : Scenario) (b : Backend σ) (ctx : Context) (options : ScenarioOptions)
    (state : σ) (order : MapOrder) : CheckResult :=
  .of s (s.check b ctx options state order).1

/-- How far the check of a scenario has come. -/
inductive Stage where
  | waiting
  | started
  /-- the goal is asked for, or its negation after a first verdict -/
  | asking (setup : Formula) (goal : Term) (first : Option Verdict) (phase : Phase)
  | done (r : Except CheckError Unit)

/-- Whether a check has begun and has no result yet. -/
def Stage.active : Stage → Bool
  | .waiting | .done _ => false
  | _ => true

/-- Checks that share a cached backend. -/
structure Checks (σ : Type) (n : Nat) where
  cache : Cache σ
  stage : Fin n → Stage

namespace Checks

variable {scenarios : List Scenario} {orders : Nat → MapOrder} {limit : Nat}
  {r r' : Checks σ scenarios.length}
  {i : Fin scenarios.length}

/-- No check has begun. -/
def start (inner : σ) {n : Nat} : Checks σ n := ⟨{ inner }, fun _ => .waiting⟩

/-- Puts a stage in the place of one scenario. -/
def put {n : Nat} (r : Checks σ n) (i : Fin n) (cache : Cache σ) (stage : Stage) : Checks σ n :=
  ⟨cache, Function.update r.stage i stage⟩

def activeCount {n : Nat} (r : Checks σ n) : Nat :=
  (Finset.univ.filter fun i => (r.stage i).active = true).card

/-- One step of one check. Checks begin in the order of the scenarios, as long as there are fewer
than the limit at a time. A scenario is compiled on its own; all that is shared is the log, of which
nothing is assumed, and its maps are gone through in an order of its own. Each of the two questions
is a call of the cached backend. -/
inductive Step (b : Backend σ) (ctx : Context) (options : ScenarioOptions)
    (scenarios : List Scenario) (orders : Nat → MapOrder) (limit : Nat)
    (r : Checks σ scenarios.length) : Checks σ scenarios.length → Prop where
  | begin {i : Fin scenarios.length} (stage : r.stage i = .waiting)
      (order : ∀ j < i, r.stage j ≠ .waiting) (free : r.activeCount < limit) :
      Step b ctx options scenarios orders limit r (r.put i r.cache .started)
  | reject {i : Fin scenarios.length} {log log' : Log} {e : ScenarioError}
      (stage : r.stage i = .started)
      (compile : scenarios[i].compile options log (orders i) = .error e) :
      Step b ctx options scenarios orders limit r
        (r.put i (b.cached.setLog r.cache log') (.done (.error (.scenario e))))
  | compile {i : Fin scenarios.length} {log log' : Log} {sys : Machine} {goal : Term}
      (stage : r.stage i = .started)
      (compile : scenarios[i].compile options log (orders i) = .ok (sys, goal)) :
      Step b ctx options scenarios orders limit r
        (r.put i (b.cached.setLog r.cache log') (.asking sys.formula goal none .asked))
  | advance {i : Fin scenarios.length} {setup : Formula} {goal : Term} {first : Option Verdict}
      {phase phase' : Phase} {cache : Cache σ} (stage : r.stage i = .asking setup goal first phase)
      (unanswered : ∀ x, phase ≠ .returned x)
      (advance : b.advance ctx (.ofFormula (query setup goal first.isNone)) phase r.cache =
        (phase', cache)) :
      Step b ctx options scenarios orders limit r (r.put i cache (.asking setup goal first phase'))
  | negate {i : Fin scenarios.length} {setup : Formula} {goal : Term} {v : Verdict}
      (stage : r.stage i = .asking setup goal none (.returned (.ok v))) :
      Step b ctx options scenarios orders limit r
        (r.put i r.cache (.asking setup goal (some v) .asked))
  | fail {i : Fin scenarios.length} {setup : Formula} {goal : Term} {first : Option Verdict}
      {e : SolverError} {log : Log}
      (stage : r.stage i = .asking setup goal first (.returned (.error e))) :
      Step b ctx options scenarios orders limit r
        (r.put i (b.cached.setLog r.cache log) (.done (.error (.solver e))))
  | conclude {i : Fin scenarios.length} {setup : Formula} {goal : Term} {v w : Verdict} {log : Log}
      (stage : r.stage i = .asking setup goal (some v) (.returned (.ok w))) :
      Step b ctx options scenarios orders limit r
        (r.put i (b.cached.setLog r.cache log) (.done (outcome scenarios[i].name v w)))

/-- The results by index, as far as there are any. -/
def results (r : Checks σ scenarios.length) : List (Option CheckResult) :=
  List.ofFn fun i => match r.stage i with
    | .done x => some (.of scenarios[i] x)
    | _ => none

/-! ### Schedules come to an end -/

end Checks

/-- How many steps a call has to go. -/
def Solver.Phase.remaining : Phase → Nat
  | .asked => 3
  | .missed => 2
  | .answered _ => 1
  | .returned _ => 0

/-- How many steps a check has to go at most. -/
def Stage.remaining : Stage → Nat
  | .waiting => 10
  | .started => 9
  | .asking _ _ none phase => 5 + phase.remaining
  | .asking _ _ (some _) phase => 1 + phase.remaining
  | .done _ => 0

namespace Checks

variable {scenarios : List Scenario} {orders : Nat → MapOrder} {limit : Nat}
  {r r' : Checks σ scenarios.length}

def remaining {n : Nat} (r : Checks σ n) : Nat := ∑ i, (r.stage i).remaining

/-- A check that is active can go on. -/
theorem exists_step_of_active {i : Fin scenarios.length} (h : (r.stage i).active = true) :
    ∃ r', Step b ctx options scenarios orders limit r r' := by
  match hstage : r.stage i with
  | .waiting | .done _ => rw [hstage] at h; cases h
  | .started =>
    match hcompile : scenarios[i].compile options .central (orders i) with
    | .error e => exact ⟨r.put i (b.cached.setLog r.cache .central) _, .reject hstage hcompile⟩
    | .ok (sys, goal) =>
      exact ⟨r.put i (b.cached.setLog r.cache .central) _, .compile hstage hcompile⟩
  | .asking setup goal none (.returned (.ok v)) => exact ⟨_, .negate hstage⟩
  | .asking setup goal (some v) (.returned (.ok w)) =>
    exact ⟨r.put i (b.cached.setLog r.cache .central) _, .conclude hstage⟩
  | .asking setup goal first (.returned (.error e)) =>
    exact ⟨r.put i (b.cached.setLog r.cache .central) _, .fail hstage⟩
  | .asking setup goal first .asked | .asking setup goal first .missed
  | .asking setup goal first (.answered _) => exact ⟨_, .advance hstage nofun rfl⟩

/-- As long as a check has no result, some check can go on or begin. -/
theorem exists_step (hlimit : 0 < limit) {i : Fin scenarios.length}
    (h : ∀ x, r.stage i ≠ .done x) : ∃ r', Step b ctx options scenarios orders limit r r' := by
  by_cases hactive : ∃ j, (r.stage j).active = true
  · obtain ⟨j, hj⟩ := hactive
    exact exists_step_of_active hj
  · simp only [not_exists] at hactive
    have hwaiting : ∃ j, r.stage j = .waiting := by
      refine ⟨i, ?_⟩
      have hnot := hactive i
      cases hstage : r.stage i with
      | waiting => rfl
      | done x => exact (h x hstage).elim
      | _ =>
        rw [hstage] at hnot
        exact (hnot rfl).elim
    -- the first scenario that waits
    obtain ⟨j, hj, hfirst⟩ := WellFounded.has_min (wellFounded_lt (α := Fin scenarios.length))
      {j | r.stage j = .waiting} hwaiting
    refine ⟨_, .begin hj (fun k hk hwait => hfirst k hwait hk) ?_⟩
    rwa [activeCount, Finset.filter_false_of_mem fun k _ => hactive k, Finset.card_empty]

/-! ### Every check gets its own result -/

/-- A check has come as far as it can with the answers for its own formulas. -/
def StageFits (s : Scenario) (options : ScenarioOptions)
    (answer : Formula → Except SolverError Verdict) (order : MapOrder) : Stage → Prop
  | .waiting | .started => True
  | .asking setup goal first phase => s.compiled options order = .ok (setup, goal) ∧
      (∀ v, first = some v → answer (query setup goal true).withoutComments = .ok v) ∧
      phase.Fits (answer (query setup goal first.isNone).withoutComments)
  | .done x => x = s.verdict options answer order

/-- All checks and the cache fit the answers. -/
structure Fits (options : ScenarioOptions) (answer : Formula → Except SolverError Verdict)
    (orders : Nat → MapOrder) (r : Checks σ scenarios.length) : Prop where
  stage : ∀ i : Fin scenarios.length,
    StageFits scenarios[i] options answer (orders i) (r.stage i)
  cache : r.cache.Fits (AskedBy scenarios options answer) answer

theorem Fits.put (h : r.Fits options answer orders) {i : Fin scenarios.length} {cache : Cache σ}
    {stage : Stage} (hstage : StageFits scenarios[i] options answer (orders i) stage)
    (hcache : cache.Fits (AskedBy scenarios options answer) answer) :
    (r.put i cache stage).Fits options answer orders := by
  refine ⟨fun j => ?_, hcache⟩
  by_cases hj : j = i
  · subst hj
    simpa [Checks.put] using hstage
  · simpa [Checks.put, hj] using h.stage j

theorem Step.fits (hb : b.Answers answer) (hctx : ctx.done = false)
    (apart : ToldApart (AskedBy scenarios options answer) answer)
    (h : Step b ctx options scenarios orders limit r r') (hr : r.Fits options answer orders) :
    r'.Fits options answer orders := by
  cases h with
  | begin stage => exact hr.put trivial hr.cache
  | reject stage compile =>
    refine hr.put ?_ hr.cache
    rw [StageFits, Scenario.verdict, Scenario.compiled_of_error compile]
  | compile stage compile =>
    exact hr.put ⟨Scenario.compiled_of_ok compile, nofun, trivial⟩ hr.cache
  | @advance i setup goal first phase phase' cache stage unanswered advance =>
    have hstage := hr.stage i
    rw [stage] at hstage
    obtain ⟨hcompiled, hfirst, hphase⟩ := hstage
    have hasked : AskedBy scenarios options answer (query setup goal first.isNone) := by
      refine ⟨scenarios[i], List.getElem_mem _, ?_⟩
      cases first with
      | none => exact .goal hcompiled
      | some v => exact .negation hcompiled (hfirst v rfl)
    obtain ⟨hphase', hcache⟩ := hb.advance hctx apart
      (q := .ofFormula (query setup goal first.isNone)) hasked hphase hr.cache
    rw [advance] at hphase' hcache
    exact hr.put ⟨hcompiled, hfirst, hphase'⟩ hcache
  | @negate i setup goal v stage =>
    have hstage := hr.stage i
    rw [stage] at hstage
    obtain ⟨hcompiled, -, hphase⟩ := hstage
    refine hr.put ⟨hcompiled, fun w hw => ?_, trivial⟩ hr.cache
    cases hw
    exact hphase
  | @fail i setup goal first e log stage =>
    have hstage := hr.stage i
    rw [stage] at hstage
    obtain ⟨hcompiled, hfirst, hphase⟩ := hstage
    refine hr.put ?_ hr.cache
    rw [StageFits, Scenario.verdict, hcompiled]
    cases first with
    | none => simp only [show answer (query setup goal true).withoutComments = .error e from hphase]
    | some v => simp only [hfirst v rfl,
        show answer (query setup goal false).withoutComments = .error e from hphase]
  | @conclude i setup goal v w log stage =>
    have hstage := hr.stage i
    rw [stage] at hstage
    obtain ⟨hcompiled, hfirst, hphase⟩ := hstage
    refine hr.put ?_ hr.cache
    rw [StageFits, Scenario.verdict, hcompiled]
    simp only [hfirst v rfl,
      show answer (query setup goal false).withoutComments = .ok w from hphase]

end Checks

/-! ## Runs -/

end CycleCheck
