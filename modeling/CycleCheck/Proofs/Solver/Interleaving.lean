import CycleCheck.Solver.Cache
import Mathlib.Data.Fintype.Card
import Mathlib.Data.Finset.Filter

/-!
Concurrent questions to a cached backend. A call looks into the table, asks the backend if it finds
nothing, and stores the verdict; other calls may come in between, so that two calls may ask the
backend for the same verdict. Whatever the order of the steps and whatever the backend answers, a
verdict that is returned was given by the backend for a formula with the same digest, errors stay
with their callers, and the counts are right. What a call stores is found in the table until a call
with the same digest stores another verdict. Once a verdict is stored and nobody is about to store
another one, the backend is not asked again.
-/

namespace CycleCheck.Solver

variable {σ ι : Type}

/-! ## The steps of a call -/

/-- How far a call has come. -/
inductive Phase where
  | asked
  /-- the table has no verdict -/
  | missed
  /-- the backend has given a verdict, which is not stored yet -/
  | answered (v : Verdict)
  | returned (r : Except SolverError Verdict)

/-- The next step of a call, which no other call can interrupt. -/
def Backend.advance (b : Backend σ) (ctx : Context) (q : Question) (phase : Phase) (c : Cache σ) :
    Phase × Cache σ :=
  match phase with
  | .asked =>
      match c.table.lookup q.digest with
      | (some v, table) => (.returned (.ok v), { c with table })
      | (none, table) => (.missed, { c with table })
  | .missed =>
      match b.check ctx q c.inner with
      | (.error e, inner) => (.returned (.error e), { c with inner })
      | (.ok v, inner) => (.answered v, { c with inner })
  | .answered v => (.returned (.ok v), { c with table := c.table.store q.digest v })
  | .returned r => (.returned r, c)

/-- The steps of a call, if no other call comes in between, are the check of the cached backend. -/
theorem Backend.iterate_advance (b : Backend σ) (ctx : Context) (q : Question) (c : Cache σ) :
    (fun p : Phase × Cache σ => b.advance ctx q p.1 p.2)^[3] (.asked, c) =
      (.returned (b.cached.check ctx q c).1, (b.cached.check ctx q c).2) := by
  simp only [Function.iterate_succ, Function.iterate_zero, Function.comp_apply, id_eq,
    Backend.advance, Backend.cached]
  cases c.table.lookup q.digest with
  | mk found table =>
    cases found with
    | some v => rfl
    | none =>
      dsimp only
      cases b.check ctx q c.inner with
      | mk answer inner => cases answer <;> rfl

/-! ## Sessions -/

/-- What a call does that matters to others. -/
inductive Event (ι : Type) where
  | hit (i : ι)
  | answer (i : ι) (r : Except SolverError Verdict)
  | store (i : ι)

/-- What a call has done when it goes from one phase to the next. -/
def Event.between (i : ι) : Phase → Phase → List (Event ι)
  | .asked, .returned _ => [.hit i]
  | .missed, .answered v => [.answer i (.ok v)]
  | .missed, .returned r => [.answer i r]
  | .answered _, .returned _ => [.store i]
  | _, _ => []

def Event.isHit : Event ι → Bool
  | .hit _ => true
  | _ => false

def Event.isStore : Event ι → Bool
  | .store _ => true
  | _ => false

/-- A question in a context, which may be done. -/
structure Call where
  ctx : Context
  question : Question

/-- Calls that share a cache. -/
structure Session (σ ι : Type) where
  cache : Cache σ
  phase : ι → Phase
  /-- what the calls have done, latest first -/
  history : List (Event ι)

/-- Nothing is stored and no call has begun. -/
def Session.start (inner : σ) : Session σ ι := ⟨{ inner }, fun _ => .asked, []⟩

variable [DecidableEq ι]

/-- One step of one call. -/
def Session.step (b : Backend σ) (calls : ι → Call) (s : Session σ ι) (i : ι) : Session σ ι :=
  let (phase, cache) := b.advance (calls i).ctx (calls i).question (s.phase i) s.cache
  { cache
    phase := Function.update s.phase i phase
    history := Event.between i (s.phase i) phase ++ s.history }

/-- The steps of calls in an order. -/
def Session.run (b : Backend σ) (calls : ι → Call) (s : Session σ ι) (schedule : List ι) :
    Session σ ι :=
  schedule.foldl (Session.step b calls) s

variable {b : Backend σ} {calls : ι → Call} {s s' : Session σ ι} {i j : ι} {d : UInt64}
  {v : Verdict} {schedule : List ι}

/-- All that a step can do. -/
inductive Session.Moves (b : Backend σ) (calls : ι → Call) (s : Session σ ι) (i : ι) :
    Session σ ι → Prop where
  | hit {v : Verdict} (phase : s.phase i = .asked)
      (found : s.cache.table.verdicts[(calls i).question.digest]? = some v) :
      s.Moves b calls i
        { cache := { s.cache with table := { s.cache.table with hits := s.cache.table.hits + 1 } }
          phase := Function.update s.phase i (.returned (.ok v))
          history := .hit i :: s.history }
  | miss (phase : s.phase i = .asked)
      (free : s.cache.table.verdicts[(calls i).question.digest]? = none) :
      s.Moves b calls i { s with phase := Function.update s.phase i .missed }
  | fail {e : SolverError} {inner : σ} (phase : s.phase i = .missed)
      (answer : b.check (calls i).ctx (calls i).question s.cache.inner = (.error e, inner)) :
      s.Moves b calls i
        { cache := { s.cache with inner }
          phase := Function.update s.phase i (.returned (.error e))
          history := .answer i (.error e) :: s.history }
  | answer {v : Verdict} {inner : σ} (phase : s.phase i = .missed)
      (answer : b.check (calls i).ctx (calls i).question s.cache.inner = (.ok v, inner)) :
      s.Moves b calls i
        { cache := { s.cache with inner }
          phase := Function.update s.phase i (.answered v)
          history := .answer i (.ok v) :: s.history }
  | store {v : Verdict} (phase : s.phase i = .answered v) :
      s.Moves b calls i
        { cache := { s.cache with table := s.cache.table.store (calls i).question.digest v }
          phase := Function.update s.phase i (.returned (.ok v))
          history := .store i :: s.history }
  | rest {r : Except SolverError Verdict} (phase : s.phase i = .returned r) : s.Moves b calls i s

theorem Session.moves_step (b : Backend σ) (calls : ι → Call) (s : Session σ ι) (i : ι) :
    s.Moves b calls i (s.step b calls i) := by
  unfold Session.step
  cases hphase : s.phase i with
  | asked =>
    cases hfound : s.cache.table.verdicts[(calls i).question.digest]? with
    | some v =>
      simp only [Backend.advance, VerdictTable.lookup, hfound]
      exact .hit hphase hfound
    | none =>
      simp only [Backend.advance, VerdictTable.lookup, hfound]
      exact .miss hphase hfound
  | missed =>
    cases hanswer : b.check (calls i).ctx (calls i).question s.cache.inner with
    | mk r inner =>
      cases r with
      | error e =>
        simp only [Backend.advance, hanswer]
        exact .fail hphase hanswer
      | ok v =>
        simp only [Backend.advance, hanswer]
        exact .answer hphase hanswer
  | answered v => exact .store hphase
  | returned r =>
    have hsame : Function.update s.phase i (.returned r) = s.phase := by
      rw [← hphase, Function.update_eq_self]
    simp only [Backend.advance, hsame]
    exact .rest hphase

/-! ## What is recorded -/

/-- A call has returned a verdict, and something else had happened before. -/
def ReturnedAfter (history : List (Event ι)) (i : ι) (e : Event ι) : Prop :=
  ∃ newer older, (history = newer ++ .hit i :: older ∨ history = newer ++ .store i :: older) ∧
    e ∈ older

omit [DecidableEq ι] in
theorem ReturnedAfter.cons {history : List (Event ι)} {e : Event ι}
    (h : ReturnedAfter history i e) (e' : Event ι) : ReturnedAfter (e' :: history) i e := by
  obtain ⟨newer, older, heq, mem⟩ := h
  exact ⟨e' :: newer, older, heq.imp (congrArg (e' :: ·)) (congrArg (e' :: ·)), mem⟩

/-- A call has stored its verdict, and no call with the same digest has stored one since. -/
def LastStore (calls : ι → Call) (history : List (Event ι)) (i : ι) : Prop :=
  ∃ newer older, history = newer ++ .store i :: older ∧
    ∀ j, .store j ∈ newer → (calls j).question.digest ≠ (calls i).question.digest

omit [DecidableEq ι] in
theorem LastStore.mem {history : List (Event ι)} (h : LastStore calls history i) :
    .store i ∈ history := by
  obtain ⟨newer, older, rfl, -⟩ := h
  simp

omit [DecidableEq ι] in
theorem lastStore_cons {history : List (Event ι)} {e : Event ι} :
    LastStore calls (e :: history) i ↔ e = .store i ∨ LastStore calls history i ∧
      ∀ j, e = .store j → (calls j).question.digest ≠ (calls i).question.digest := by
  constructor
  · rintro ⟨newer, older, heq, hnewer⟩
    cases newer with
    | nil => exact .inl (List.cons.inj heq).1
    | cons e' newer =>
      obtain ⟨rfl, rfl⟩ := List.cons.inj heq
      exact .inr ⟨⟨newer, older, rfl, fun j hj => hnewer j (List.mem_cons_of_mem _ hj)⟩,
        fun j hj => hnewer j (hj ▸ List.mem_cons_self)⟩
  · rintro (rfl | ⟨⟨newer, older, rfl, hnewer⟩, he⟩)
    · exact ⟨[], history, rfl, by simp⟩
    · refine ⟨e :: newer, older, rfl, fun j hj => ?_⟩
      rcases List.mem_cons.1 hj with hj | hj
      · exact he j hj.symm
      · exact hnewer j hj

omit [DecidableEq ι] in
/-- Among the calls that stored a verdict for a digest there is a last one. -/
theorem exists_lastStore {history : List (Event ι)} (h : .store i ∈ history) :
    ∃ j, (calls j).question.digest = (calls i).question.digest ∧ LastStore calls history j := by
  induction history with
  | nil => cases h
  | cons e rest ih =>
    by_cases hlast : ∃ j, e = .store j ∧ (calls j).question.digest = (calls i).question.digest
    · obtain ⟨j, he, hj⟩ := hlast
      exact ⟨j, hj, lastStore_cons.2 (.inl he)⟩
    · have hrest : .store i ∈ rest := (List.mem_cons.1 h).resolve_left fun he =>
        hlast ⟨i, he.symm, rfl⟩
      obtain ⟨j, hj, hstore⟩ := ih hrest
      exact ⟨j, hj, lastStore_cons.2 (.inr ⟨hstore, fun k hk hd => hlast ⟨k, hk, hd.trans hj⟩⟩)⟩

/-- The phases, the table and the history of a session fit together. -/
structure Session.Recorded (calls : ι → Call) (s : Session σ ι) : Prop where
  answer : ∀ i r, .answer i r ∈ s.history →
    s.phase i = .returned r ∨ ∃ v, r = .ok v ∧ s.phase i = .answered v
  answered : ∀ i v, s.phase i = .answered v → .answer i (.ok v) ∈ s.history
  failed : ∀ i e, s.phase i = .returned (.error e) → .answer i (.error e) ∈ s.history
  stored : ∀ i, .store i ∈ s.history → ∃ v, s.phase i = .returned (.ok v)
  verdict : ∀ i v, s.phase i = .returned (.ok v) → ∃ j,
    (calls j).question.digest = (calls i).question.digest ∧
      ReturnedAfter s.history i (.answer j (.ok v))
  table : ∀ (d : UInt64) v, s.cache.table.verdicts[d]? = some v → ∃ j,
    (calls j).question.digest = d ∧ .answer j (.ok v) ∈ s.history
  latest : ∀ i v, LastStore calls s.history i → s.phase i = .returned (.ok v) →
    s.cache.table.verdicts[(calls i).question.digest]? = some v
  hits : s.cache.table.hits = s.history.countP Event.isHit
  misses : s.cache.table.misses = s.history.countP Event.isStore

omit [DecidableEq ι] in
theorem Session.recorded_start (calls : ι → Call) (inner : σ) :
    (Session.start inner : Session σ ι).Recorded calls := by
  constructor <;> simp [Session.start]

omit [DecidableEq ι] in
/-- What was stored is in the table, or what was stored after it. -/
theorem Session.Recorded.exists_stored (h : s.Recorded calls) (hstore : .store i ∈ s.history) :
    ∃ v, s.cache.table.verdicts[(calls i).question.digest]? = some v := by
  obtain ⟨j, hj, hlast⟩ : ∃ j, (calls j).question.digest = (calls i).question.digest ∧
      LastStore calls s.history j := exists_lastStore hstore
  obtain ⟨v, hv⟩ := h.stored j hlast.mem
  exact ⟨v, hj ▸ h.latest j v hlast hv⟩

/-- A step is recorded, and it concerns no other call. -/
theorem Session.Recorded.moves (h : s.Recorded calls) (move : s.Moves b calls i s') :
    s'.Recorded calls := by
  obtain ⟨answer, answered, failed, stored, verdict, table, latest, hits, misses⟩ := h
  have hmem : ∀ {k}, LastStore calls s.history k → .store k ∈ s.history := LastStore.mem
  cases move with
  | rest => exact ⟨answer, answered, failed, stored, verdict, table, latest, hits, misses⟩
  | miss phase free =>
    constructor
    all_goals simp only [Function.update_apply]
    all_goals grind
  | hit phase found =>
    obtain ⟨j, hj, hanswer⟩ := table _ _ found
    have hreturned : ∀ {v}, .answer j (.ok v) ∈ s.history →
      ReturnedAfter (.hit i :: s.history) i (.answer j (.ok v)) := fun h => ⟨[], _, .inl rfl, h⟩
    constructor
    all_goals simp only [Function.update_apply, List.mem_cons, List.countP_cons, lastStore_cons]
    all_goals grind [Event.isHit, Event.isStore, ReturnedAfter.cons]
  | fail phase | answer phase =>
    constructor
    all_goals simp only [Function.update_apply, List.mem_cons, List.countP_cons, lastStore_cons]
    all_goals grind [Event.isHit, Event.isStore, ReturnedAfter.cons]
  | store phase =>
    have hreturned : ∀ {v}, .answer i (.ok v) ∈ s.history →
      ReturnedAfter (.store i :: s.history) i (.answer i (.ok v)) := fun h => ⟨[], _, .inr rfl, h⟩
    constructor
    all_goals simp only [Function.update_apply, List.mem_cons, List.countP_cons, lastStore_cons,
      VerdictTable.store, Std.HashMap.getElem?_insert]
    all_goals grind [Event.isHit, Event.isStore, ReturnedAfter.cons]

theorem Session.Recorded.run (h : s.Recorded calls) (schedule : List ι) :
    (s.run b calls schedule).Recorded calls := by
  induction schedule generalizing s with
  | nil => exact h
  | cons i rest ih => exact ih (h.moves (s.moves_step b calls i))

/-! ## Counts -/

/-- Whether a call has returned without an error. -/
def Phase.succeeded : Phase → Bool
  | .returned (.ok _) => true
  | _ => false

/-- How many calls have returned without an error. -/
def Session.successes [Fintype ι] (s : Session σ ι) : Nat :=
  (Finset.univ.filter fun i => (s.phase i).succeeded = true).card

theorem card_succeeded_update [Fintype ι] (f : ι → Phase) {i : ι} (p : Phase)
    (h : (f i).succeeded = false) :
    (Finset.univ.filter fun j => (Function.update f i p j).succeeded = true).card =
      (Finset.univ.filter fun j => (f j).succeeded = true).card + p.succeeded.toNat := by
  cases hp : p.succeeded with
  | true =>
    have hinsert : (Finset.univ.filter fun j => (Function.update f i p j).succeeded = true) =
        insert i (Finset.univ.filter fun j => (f j).succeeded = true) := by
      ext j
      by_cases hj : j = i
      · simp [hj, hp]
      · simp [hj]
    rw [hinsert, Finset.card_insert_of_notMem (by simp [h])]
    rfl
  | false =>
    refine congrArg Finset.card (Finset.filter_congr fun j _ => ?_)
    by_cases hj : j = i
    · simp [hj, hp, h]
    · simp [hj]

/-- Hits and misses count the calls that have returned without an error. -/
theorem Session.successes_moves [Fintype ι] (h : s.Moves b calls i s')
    (total : s.cache.table.hits + s.cache.table.misses = s.successes) :
    s'.cache.table.hits + s'.cache.table.misses = s'.successes := by
  unfold Session.successes at total ⊢
  cases h with
  | rest => exact total
  | miss phase | hit phase | fail phase | answer phase | store phase =>
    rw [card_succeeded_update _ _ (by rw [phase]; rfl), ← total]
    simp only [Phase.succeeded, VerdictTable.store, Bool.toNat_true, Bool.toNat_false]
    omega

theorem Session.successes_run [Fintype ι]
    (total : s.cache.table.hits + s.cache.table.misses = s.successes) (schedule : List ι) :
    (s.run b calls schedule).cache.table.hits + (s.run b calls schedule).cache.table.misses =
      (s.run b calls schedule).successes := by
  induction schedule generalizing s with
  | nil => exact total
  | cons i rest ih => exact ih (Session.successes_moves (s.moves_step b calls i) total)

/-! ## Stored verdicts -/

/-- Whether a call has looked into the table in vain and is not done. -/
def Phase.inFlight : Phase → Bool
  | .missed | .answered _ => true
  | _ => false

/-- A verdict is stored for a digest, and no call is about to store another one. -/
structure Session.Settled (calls : ι → Call) (d : UInt64) (v : Verdict) (s : Session σ ι) :
    Prop where
  stored : s.cache.table.verdicts[d]? = some v
  quiet : ∀ i, (calls i).question.digest = d → (s.phase i).inFlight = false

/-- A call that has returned stays as it is. -/
theorem Session.returned_run {r : Except SolverError Verdict} (h : s.phase i = .returned r)
    (schedule : List ι) : (s.run b calls schedule).phase i = .returned r := by
  induction schedule generalizing s with
  | nil => exact h
  | cons j rest ih =>
    refine ih ?_
    have move := s.moves_step b calls j
    generalize s.step b calls j = s' at move
    cases move with
    | rest => exact h
    | miss phase | hit phase | fail phase | answer phase | store phase =>
      have hij : i ≠ j := by
        rintro rfl
        cases h.symm.trans phase
      exact (Function.update_of_ne hij _ _).trans h

/-- A step next to a stored verdict: it stays, the backend is not asked for it again, and a call
for it that has not begun finds it with its first step. -/
theorem Session.Settled.moves (h : s.Settled calls d v) (move : s.Moves b calls i s') :
    s'.Settled calls d v ∧ ∀ j, (calls j).question.digest = d →
      (∀ r, .answer j r ∈ s'.history → .answer j r ∈ s.history) ∧
        (s.phase j = .asked → s'.phase j = if j = i then .returned (.ok v) else .asked) := by
  obtain ⟨stored, quiet⟩ := h
  -- what is in flight is in flight for another digest
  have hother : (s.phase i).inFlight = true → (calls i).question.digest ≠ d := fun hflight hd => by
    rw [quiet i hd] at hflight
    cases hflight
  cases move with
  | rest => exact ⟨⟨stored, quiet⟩, by grind⟩
  | hit phase found =>
    refine ⟨⟨stored, fun j hj => ?_⟩, fun j hj => ⟨by simp, fun hasked => ?_⟩⟩
    · grind [Function.update_apply, Phase.inFlight]
    · grind [Function.update_apply]
  | miss phase free =>
    have hne : (calls i).question.digest ≠ d := fun hd => by
      rw [hd, stored] at free
      cases free
    refine ⟨⟨stored, fun j hj => ?_⟩, fun j hj => ⟨by simp, fun hasked => ?_⟩⟩
    · grind [Function.update_apply]
    · grind [Function.update_apply]
  | fail phase | answer phase =>
    have hne := hother (by rw [phase]; rfl)
    refine ⟨⟨stored, fun j hj => ?_⟩, fun j hj => ⟨fun r hr => ?_, fun hasked => ?_⟩⟩
    · grind [Function.update_apply]
    · grind
    · grind [Function.update_apply]
  | store phase =>
    have hne := hother (by rw [phase]; rfl)
    refine ⟨⟨?_, fun j hj => ?_⟩, fun j hj => ⟨by simp, fun hasked => ?_⟩⟩
    · simpa [VerdictTable.store, Std.HashMap.getElem?_insert, hne] using stored
    · grind [Function.update_apply]
    · grind [Function.update_apply]

theorem Session.Settled.run (h : s.Settled calls d v) (later : List ι) :
    (s.run b calls later).Settled calls d v ∧ ∀ j, (calls j).question.digest = d →
      (∀ r, .answer j r ∈ (s.run b calls later).history → .answer j r ∈ s.history) ∧
        (s.phase j = .asked → (s.run b calls later).phase j =
          if j ∈ later then .returned (.ok v) else .asked) := by
  induction later generalizing s with
  | nil => exact ⟨h, fun j _ => ⟨fun _ hr => hr, fun hasked => hasked⟩⟩
  | cons i rest ih =>
    obtain ⟨hsettled, hstep⟩ := h.moves (s.moves_step b calls i)
    obtain ⟨hrun, hrest⟩ := ih hsettled
    refine ⟨hrun, fun j hj =>
      ⟨fun r hr => (hstep j hj).1 r ((hrest j hj).1 r hr), fun hasked => ?_⟩⟩
    have hphase := (hstep j hj).2 hasked
    by_cases hji : j = i
    · rw [if_pos hji] at hphase
      rw [if_pos (by simp [hji])]
      exact Session.returned_run hphase rest
    · rw [if_neg hji] at hphase
      change ((s.step b calls i).run b calls rest).phase j = _
      rw [(hrest j hj).2 hphase]
      simp [hji]

/-! ## Transparency -/

/-- A cache that calls can rely on, seen in a session. -/
structure Session.Transparent [Fintype ι] (b : Backend σ) (calls : ι → Call) (s : Session σ ι) :
    Prop where
  /-- A verdict that is returned was given before by the backend for a formula with the same
  digest. -/
  verdict : ∀ i v, s.phase i = .returned (.ok v) → ∃ j,
    (calls j).question.formula.digest = (calls i).question.formula.digest ∧
      ReturnedAfter s.history i (.answer j (.ok v))
  /-- Errors of the backend, and no others, go to the calls that asked. -/
  error : ∀ i e, .answer i (.error e) ∈ s.history ↔ s.phase i = .returned (.error e)
  /-- No call stores anything after an error. -/
  unstored : ∀ i e, .answer i (.error e) ∈ s.history → .store i ∉ s.history
  /-- What is stored was given by the backend. -/
  table : ∀ (d : UInt64) v, s.cache.table.verdicts[d]? = some v → ∃ j,
    (calls j).question.formula.digest = d ∧ .answer j (.ok v) ∈ s.history
  /-- A call stores a verdict when it returns it; from then on there is one for its digest. -/
  stored : ∀ i, .store i ∈ s.history → (∃ v, s.phase i = .returned (.ok v)) ∧
    ∃ v, s.cache.table.verdicts[(calls i).question.formula.digest]? = some v
  /-- What the last call for a digest has stored is what the table has. -/
  latest : ∀ i v, LastStore calls s.history i → s.phase i = .returned (.ok v) →
    s.cache.table.verdicts[(calls i).question.formula.digest]? = some v
  hits : s.cache.table.hits = s.history.countP Event.isHit
  misses : s.cache.table.misses = s.history.countP Event.isStore
  /-- Hits and misses together count the calls that have returned without an error. -/
  total : s.cache.table.hits + s.cache.table.misses = s.successes
  /-- As soon as a verdict is stored and no call for its digest is in flight, all calls for it that
  have not begun return it, done contexts or not, and the backend is not asked. -/
  settled : ∀ (d : UInt64) v, s.cache.table.verdicts[d]? = some v →
    (∀ i, (calls i).question.formula.digest = d → (s.phase i).inFlight = false) →
    ∀ later : List ι, ∀ i, (calls i).question.formula.digest = d → s.phase i = .asked →
      (i ∈ later → (s.run b calls later).phase i = .returned (.ok v)) ∧
        ∀ r, .answer i r ∉ (s.run b calls later).history

/-- The cache is transparent whatever the order of the steps of its calls, whatever the backend
answers and whichever contexts are done. -/
theorem transparent_run [Fintype ι] (b : Backend σ) (calls : ι → Call) (inner : σ)
    (schedule : List ι) : ((Session.start inner).run b calls schedule).Transparent b calls := by
  have recorded : ((Session.start inner).run b calls schedule).Recorded calls :=
    (Session.recorded_start calls inner).run schedule
  have total : ((Session.start inner).run b calls schedule).cache.table.hits +
      ((Session.start inner).run b calls schedule).cache.table.misses =
        ((Session.start inner).run b calls schedule).successes :=
    Session.successes_run (by simp [Session.start, Session.successes, Phase.succeeded]) schedule
  generalize (Session.start inner).run b calls schedule = s at recorded total
  have hdigest : ∀ i, (calls i).question.formula.digest = (calls i).question.digest := fun i =>
    (calls i).question.digest_eq.symm
  refine ⟨by simpa only [hdigest] using recorded.verdict, fun i e => ⟨fun h => ?_,
    recorded.failed i e⟩, fun i e h h' => ?_, by simpa only [hdigest] using recorded.table,
    fun i h => ⟨recorded.stored i h, ?_⟩, by simpa only [hdigest] using recorded.latest,
    recorded.hits, recorded.misses, total, ?_⟩
  · exact (recorded.answer i _ h).resolve_right nofun
  · obtain ⟨v, hv⟩ := recorded.stored i h'
    rcases recorded.answer i _ h with hreturned | ⟨_, heq, -⟩
    · cases hreturned.symm.trans hv
    · cases heq
  · rw [hdigest]
    exact recorded.exists_stored h
  · simp only [hdigest]
    intro d v stored quiet later i hi hasked
    obtain ⟨-, hcalls⟩ := Session.Settled.run (b := b) ⟨stored, quiet⟩ later
    obtain ⟨hanswers, hphase⟩ := hcalls i hi
    refine ⟨fun hmem => by rw [hphase hasked, if_pos hmem], fun r hr => ?_⟩
    rcases recorded.answer i r (hanswers r hr) with hreturned | ⟨_, -, hanswered⟩
    · cases hasked.symm.trans hreturned
    · cases hasked.symm.trans hanswered

/-- A backend that calls the first formula satisfiable and all others unsatisfiable. -/
def wavering : Backend Nat where
  name := "wavering"
  check := fun _ _ n => (.ok (if n = 0 then .sat else .unsat), n + 1)
  log := fun _ => .central
  setLog := fun n _ => n

/-- Two calls for the same formula; the context of the second is done. -/
def twice (i : Fin 2) : Call := ⟨⟨i = 1⟩, .ofFormula [.checkSat]⟩

/-- The first call stores its verdict. The second one finds it, though the backend would give it
another. -/
theorem transparent_run_twice :
    let s := (Session.start 0).run wavering twice [0, 0, 0]
    .store 0 ∈ s.history ∧ s.cache.inner = 1 ∧
      s.cache.table.verdicts[Formula.digest [.checkSat]]? = some .sat ∧
      (s.run wavering twice [1]).phase 1 = .returned (.ok .sat) ∧
      ∀ r, .answer 1 r ∉ (s.run wavering twice [1]).history := by
  intro s
  have transparent : s.Transparent wavering twice := transparent_run wavering twice 0 [0, 0, 0]
  have first : s.history = [.store 0, .answer 0 (.ok .sat)] ∧ s.cache.inner = 1 ∧
      s.phase 0 = .returned (.ok .sat) ∧ s.phase 1 = .asked := by
    simp [s, Session.run, Session.step, Session.start, Backend.advance, VerdictTable.lookup,
      Event.between, wavering]
  obtain ⟨history, inner, returned, asked⟩ := first
  have last : LastStore twice s.history 0 := ⟨[], _, history, by simp⟩
  have found := transparent.latest 0 .sat last returned
  have quiet : ∀ i, (s.phase i).inFlight = false := by
    simp [Fin.forall_fin_two, returned, asked, Phase.inFlight]
  obtain ⟨answer, unasked⟩ := transparent.settled _ _ found (fun i _ => quiet i) [1] 1 rfl asked
  exact ⟨last.mem, inner, found, answer (by simp), unasked⟩

end CycleCheck.Solver
