import CycleCheck.Proofs.Scenario.Verdict

/-!
What the outcome of a check says about the models of its setup. Two verdicts are combined, one of
the goal and one of its negation. If both are right then the outcome reports the one of four
findings that is true; if one of the questions is not answered then it reports none of them.
-/

namespace CycleCheck

open Solver

/-! ## Models -/

/-- A model gives every declared symbol a value of its sort and makes all assertions true. -/
def Interpretation.Models (I : Interpretation) (f : Formula) : Prop :=
  I.Fits f.signature ∧ I.Satisfies f

def Formula.Satisfiable (f : Formula) : Prop := ∃ I : Interpretation, I.Models f

theorem Kind.exists_meaning (k : Kind) : ∃ m : Meaning, m.kind = k := by
  cases k with
  | truth => exact ⟨.truth false, rfl⟩
  | bits w => exact ⟨.bits w 0, rfl⟩
  | array a d => exact ⟨.array a d fun _ => 0, rfl⟩

theorem Formula.WellSorted.exists_fits {f : Formula} (h : f.WellSorted) :
    ∃ I : Interpretation, I.Fits f.signature := by
  have hvalue : ∀ x, ∃ m : Meaning, ∀ k, (x, k) ∈ f.signature → m.kind = k := by
    intro x
    by_cases hx : ∃ k, (x, k) ∈ f.signature
    · obtain ⟨k, hk⟩ := hx
      obtain ⟨m, hm⟩ := k.exists_meaning
      refine ⟨m, fun k' hk' => ?_⟩
      have hsame : (x, k) = (x, k') := List.inj_on_of_nodup_map h.unique hk hk' rfl
      exact hm.trans (Prod.ext_iff.1 hsame).2
    · exact ⟨.truth false, fun k hk => absurd ⟨k, hk⟩ hx⟩
  choose I hI using hvalue
  exact ⟨I, hI⟩

/-! ## Queries -/

section Query

variable {setup : Formula} {goal : Term}

theorem forall_asserted_query {p : Term → Prop} (hsetup : ∀ t, Command.assert t ∈ setup → p t)
    (hgoal : p goal) (hnot : p (.not goal)) (b : Bool) :
    ∀ t, Command.assert t ∈ query setup goal b → p t := by
  intro t ht
  rcases List.mem_append.1 ht with ht | ht
  · exact hsetup t ht
  · obtain rfl : t = if b then goal else .not goal := by simpa using ht
    split_ifs
    · exact hgoal
    · exact hnot

theorem wellSorted_query (hsetup : setup.WellSorted) (hgoal : goal.HasKind setup.signature .truth)
    (b : Bool) : (query setup goal b).WellSorted where
  unique := by
    rw [Scenario.signature_query]
    exact hsetup.unique
  asserted := by
    rw [Scenario.signature_query]
    have hnot : (Term.not goal).HasKind setup.signature .truth :=
      ⟨[.truth], by simpa [Term.HaveKinds] using hgoal, .not⟩
    exact forall_asserted_query hsetup.asserted hgoal hnot b

theorem extensionsBelow_query {bound : Nat} (hsetup : setup.ExtensionsBelow bound)
    (hgoal : goal.ExtensionsBelow bound) (b : Bool) :
    (query setup goal b).ExtensionsBelow bound := by
  have hnot : (Term.not goal).ExtensionsBelow bound := by
    simpa [Term.not, Term.ExtensionsBelow, Term.AllExtensionsBelow] using hgoal
  exact forall_asserted_query hsetup hgoal hnot b

theorem models_query {I : Interpretation} {b : Bool} :
    I.Models (query setup goal b) ↔ I.Models setup ∧ (I.Holds goal ↔ b = true) := by
  rw [Interpretation.Models, Scenario.signature_query, Interpretation.Models, and_assoc, query]
  cases b with
  | true => simp
  | false => simp [Term.not, Interpretation.holds_not]

theorem satisfiable_query {b : Bool} : (query setup goal b).Satisfiable ↔
    ∃ I : Interpretation, I.Models setup ∧ (I.Holds goal ↔ b = true) := by
  simp only [Formula.Satisfiable, models_query]

end Query

/-! ## Findings -/

/-- What there is to find out about a goal. -/
inductive Finding where
  | forced
  | vacuous
  | contradictory
  | refuted
deriving DecidableEq

namespace Finding

/-- Whether a finding is true, by the models of the setup. -/
def Holds (setup : Formula) (goal : Term) : Finding → Prop
  | .forced => setup.Satisfiable ∧ ∀ I : Interpretation, I.Models setup → I.Holds goal
  | .vacuous => (∃ I : Interpretation, I.Models setup ∧ I.Holds goal) ∧
      ∃ I : Interpretation, I.Models setup ∧ ¬ I.Holds goal
  | .contradictory => ¬ setup.Satisfiable
  | .refuted => setup.Satisfiable ∧ ∀ I : Interpretation, I.Models setup → ¬ I.Holds goal

/-- The pattern of the error that reports a finding. -/
def pattern? : Finding → Option String
  | .forced => none
  | .vacuous => some "verification: %s: vacuous (the goal is not forced by the setup)"
  | .contradictory => some "verification: %s: contradictory setup"
  | .refuted => some "verification: %s: goal refuted"

/-- The finding that a result reports. Errors are told apart by their patterns. -/
def reported? : Except CheckError Unit → Option Finding
  | .ok () => some .forced
  | .error e => [.vacuous, .contradictory, .refuted].find? fun c => c.pattern?.any e.fault.is

/-- What two right verdicts mean. -/
def ofVerdicts : Verdict → Verdict → Finding
  | .sat, .unsat => .forced
  | .sat, .sat => .vacuous
  | .unsat, .unsat => .contradictory
  | .unsat, .sat => .refuted

theorem reported?_outcome (label : String) (v w : Verdict) :
    reported? (outcome label v w) = some (ofVerdicts v w) := by
  cases v <;> cases w <;> rfl

variable {setup : Formula} {goal : Term}

theorem holds_ofVerdicts {v w : Verdict} (hv : v = .sat ↔ (query setup goal true).Satisfiable)
    (hw : w = .sat ↔ (query setup goal false).Satisfiable) :
    (ofVerdicts v w).Holds setup goal := by
  simp only [satisfiable_query, iff_true, Bool.false_eq_true, iff_false] at hv hw
  cases v with
  | sat =>
    obtain ⟨I, hI, hgoal⟩ := hv.1 rfl
    cases w with
    | sat => exact ⟨⟨I, hI, hgoal⟩, hw.1 rfl⟩
    | unsat =>
      have hnone := mt hw.2 (by decide)
      exact ⟨⟨I, hI⟩, fun J hJ => not_not.1 fun h => hnone ⟨J, hJ, h⟩⟩
  | unsat =>
    have hnone := mt hv.2 (by decide)
    cases w with
    | sat =>
      obtain ⟨I, hI, -⟩ := hw.1 rfl
      exact ⟨⟨I, hI⟩, fun J hJ h => hnone ⟨J, hJ, h⟩⟩
    | unsat =>
      have hnone' := mt hw.2 (by decide)
      rintro ⟨I, hI⟩
      exact hnone' ⟨I, hI, fun h => hnone ⟨I, hI, h⟩⟩

/-- No two findings are true of one goal. -/
theorem Holds.unique {c d : Finding} (hc : c.Holds setup goal) (hd : d.Holds setup goal) :
    c = d := by
  cases c <;> cases d <;> simp only [Holds, Formula.Satisfiable] at hc hd <;> grind

/-- What a result says if it comes from the answers to the two questions. -/
structure Told (setup : Formula) (goal : Term) (first second : Except SolverError Verdict)
    (result : Except CheckError Unit) : Prop where
  sound : ∀ c, reported? result = some c → c.Holds setup goal
  failed : ∀ e, (first = .error e ∨ (∃ v, first = .ok v) ∧ second = .error e) →
    result = .error (.solver e) ∧ reported? result = none
  decided : ∀ v w, first = .ok v → second = .ok w →
    ∃ c, reported? result = some c ∧ ∀ d : Finding, d.Holds setup goal ↔ d = c

theorem told_of_right {first second : Except SolverError Verdict}
    (hfirst : ∀ v, first = .ok v → (v = .sat ↔ (query setup goal true).Satisfiable))
    (hsecond : ∀ w, second = .ok w → (w = .sat ↔ (query setup goal false).Satisfiable))
    (label : String) : Told setup goal first second
      (first.mapError .solver >>= fun v => second.mapError .solver >>= outcome label v) := by
  rcases first with e | v
  · refine ⟨nofun, fun e' h => ?_, nofun⟩
    rcases h with h | ⟨⟨v, h⟩, -⟩ <;> cases h
    exact ⟨rfl, rfl⟩
  rcases second with e | w
  · refine ⟨nofun, fun e' h => ?_, nofun⟩
    rcases h with h | ⟨-, h⟩ <;> cases h
    exact ⟨rfl, rfl⟩
  have hholds := holds_ofVerdicts (hfirst v rfl) (hsecond w rfl)
  have hreported := reported?_outcome label v w
  refine ⟨fun c hc => ?_, fun e' h => ?_, fun _ _ _ _ => ?_⟩
  · cases hreported.symm.trans hc
    exact hholds
  · rcases h with h | ⟨-, h⟩ <;> cases h
  · exact ⟨_, hreported, fun d => ⟨fun hd => hd.unique hholds, fun h => h ▸ hholds⟩⟩

end Finding

/-! ## Backends -/

/-- The answers of a backend to well sorted formulas of a class are right. -/
def Solver.Backend.Sound {σ : Type} (b : Backend σ) (scope : Formula → Prop) : Prop :=
  ∀ f : Formula, f.WellSorted → scope f → ∀ ctx state v,
    (b.check ctx (.ofFormula f) state).1 = .ok v → (v = .sat ↔ f.Satisfiable)

theorem sound_propagate (elapsed : String) :
    (propagate elapsed).Sound (Formula.ExtensionsBelow (2 ^ 62)) := by
  intro f sorted short ctx log v h
  simp only [propagate, Question.ofFormula] at h
  split_ifs at h with hdone
  rcases hsolve : Propagation.solve f with e | (m | t) <;> rw [hsolve] at h <;> cases h
  · obtain ⟨wk, hmodels⟩ := Propagation.solve_decided sorted short hsolve
    obtain ⟨J, fits⟩ := sorted.exists_fits
    have hfits := wk.complete_fits fits
    refine iff_of_true rfl ⟨m.complete J, hfits, ?_⟩
    exact (hmodels _ hfits).1 (wk.complete_agrees fits)
  · refine iff_of_false (by decide) ?_
    rintro ⟨I, fits, hI⟩
    exact Propagation.solve_decided sorted short hsolve I fits hI

section Contingent

variable {σ : Type} (b : Backend σ) (ctx : Context) (setup : Formula) (goal : Term) (state : σ)

/-- The answer to the question about the goal. -/
def answerToGoal : Except SolverError Verdict :=
  (b.check ctx (.ofFormula (query setup goal true)) state).1

/-- The answer to the question about the negation, which is asked after the one about the goal. -/
def answerToNegation : Except SolverError Verdict :=
  (b.check ctx (.ofFormula (query setup goal false))
    (b.check ctx (.ofFormula (query setup goal true)) state).2).1

theorem contingent_eq (label : String) : (contingent b ctx setup goal label state).1 =
    ((answerToGoal b ctx setup goal state).mapError .solver >>= fun v =>
      (answerToNegation b ctx setup goal state).mapError .solver >>= outcome label v) := by
  rw [contingent, answerToGoal, answerToNegation]
  rcases b.check ctx (.ofFormula (query setup goal true)) state with ⟨e | v, state'⟩
  · rfl
  dsimp only
  rcases b.check ctx (.ofFormula (query setup goal false)) state' with ⟨e | w, state''⟩ <;> rfl

/-- The result of a check by a backend says about the models of the setup what it reports. -/
def Tells (label : String) : Prop :=
  Finding.Told setup goal (answerToGoal b ctx setup goal state)
    (answerToNegation b ctx setup goal state) (contingent b ctx setup goal label state).1

variable {b ctx setup goal state}

theorem tells_of_sound {scope : Formula → Prop} (hb : b.Sound scope) (hsetup : setup.WellSorted)
    (hgoal : goal.HasKind setup.signature .truth)
    (hscope : ∀ holds, scope (query setup goal holds)) (label : String) :
    Tells b ctx setup goal state label := by
  have hanswer := fun holds => hb _ (wellSorted_query hsetup hgoal holds) (hscope holds)
  rw [Tells, contingent_eq]
  exact Finding.told_of_right (hanswer true _ _) (hanswer false _ _) label

end Contingent

/-- The outcome of a check by a sound backend means what it says, and so does the outcome of one by
propagation. -/
theorem tells_contingent {setup : Formula} {goal : Term} (hsetup : setup.WellSorted)
    (hgoal : goal.HasKind setup.signature .truth) (label : String) :
    (∀ (σ : Type) (b : Backend σ) (scope : Formula → Prop), b.Sound scope →
      (∀ holds, scope (query setup goal holds)) →
      ∀ ctx state, Tells b ctx setup goal state label) ∧
    (setup.ExtensionsBelow (2 ^ 62) → goal.ExtensionsBelow (2 ^ 62) →
      ∀ elapsed ctx log, Tells (propagate elapsed) ctx setup goal log label) := by
  refine ⟨fun σ b scope hb hscope ctx state => ?_, fun hshort hshort' elapsed ctx log => ?_⟩
  · exact tells_of_sound hb hsetup hgoal hscope label
  · exact tells_of_sound (sound_propagate elapsed) hsetup hgoal
      (extensionsBelow_query hshort hshort') label

section Byte

/-- A byte has a value. -/
def byteIs (n : Nat) : Term := .eq (.symbol ⟨"x"⟩) (.word 8 n)

/-- A byte is three. -/
def byteIsThree : Formula := [.declareBits ⟨"x"⟩ ⟨8⟩, .assert (byteIs 3)]

theorem signature_byteIsThree : byteIsThree.signature = [("x", .bits 8)] := rfl

theorem evaluable_byteIs {n : Nat} (hn : n < 2 ^ 8) :
    (byteIs n).Evaluable (fun x k => (x, k) ∈ byteIsThree.signature) .truth :=
  .eq (.symbol (by simp [signature_byteIsThree])) (.word (by decide) (by decide) hn)

theorem asserted_byteIsThree {t : Term} (h : Command.assert t ∈ byteIsThree) : t = byteIs 3 := by
  simpa [byteIsThree] using h

theorem answer_byteIs {n : Nat} (hn : n < 2 ^ 8) (b : Bool) :
    Scenario.answer (query byteIsThree (byteIs n) b) =
      .ok (if n = 3 ↔ b = true then .sat else .unsat) := by
  let I : Interpretation := fun _ => .bits 8 3
  have fits : I.Fits byteIsThree.signature := by
    simp [Interpretation.Fits, signature_byteIsThree, I]
  have hholds : ∀ m < 2 ^ 8, I.Holds (byteIs m) ↔ m = 3 := by
    intro m hm
    rw [byteIs, I.holds_eq_bits rfl (I.denote_word 8 m), ← BitVec.toNat_inj, BitVec.toNat_ofNat,
      Nat.mod_eq_of_lt hm]
    exact eq_comm
  have hdetermines : Propagation.Determines byteIsThree.signature I (fun _ _ => False)
      (Propagation.assertedTerms byteIsThree) fun x k => (x, k) ∈ byteIsThree.signature := by
    have h := Propagation.Determines.assigned (Γ := fun _ _ => False) (x := ⟨"x"⟩) fits
      (by simp [signature_byteIsThree]) (.word (by decide) (by decide) (by decide))
      ((hholds 3 (by decide)).2 rfl)
    have hscope : Scope.extend (fun _ _ => False) [("x", .bits 8)] =
        fun x k => (x, k) ∈ byteIsThree.signature := by
      funext x k
      exact false_or _
    exact hscope ▸ h
  have hquery : (if b then byteIs n else .not (byteIs n)).Evaluable
      (fun x k => (x, k) ∈ byteIsThree.signature) .truth := by
    split_ifs
    · exact evaluable_byteIs hn
    · exact .not (evaluable_byteIs hn)
  have hmeans : I.Holds (if b then byteIs n else .not (byteIs n)) ↔ (n = 3 ↔ b = true) := by
    cases b <;> simp [Term.not, Interpretation.holds_not, hholds n hn]
  have hunique : (byteIsThree.signature.map Prod.fst).Nodup := by simp [signature_byteIsThree]
  rw [Scenario.answer]
  split_ifs with hsame
  · have hsat := hdetermines.append (.judged fits hquery (hmeans.2 hsame))
    obtain ⟨q, hsolve, -⟩ := Propagation.solve_of_determines
      (f := query byteIsThree (byteIs n) b) (by rwa [Scenario.signature_query])
      (by rw [Scenario.signature_query, query, Propagation.assertedTerms_append]; exact hsat)
    rw [hsolve]
  · obtain ⟨u, hsolve⟩ := Propagation.solve_unsat_of_determines fits hunique hdetermines hquery
      (hmeans.not.2 hsame)
    rw [query, hsolve]

/-- That the byte is three is forced, and that it is four is refuted. -/
theorem tells_contingent_byte :
    ((contingent (propagate "1ms") {} byteIsThree (byteIs 3) "three" .central).1 = .ok () ∧
      byteIsThree.Satisfiable ∧ ∀ I : Interpretation, I.Models byteIsThree → I.Holds (byteIs 3)) ∧
    (contingent (propagate "1ms") {} byteIsThree (byteIs 4) "four" .central).1 =
        .error (.refuted "four") ∧
      ∀ I : Interpretation, I.Models byteIsThree → ¬ I.Holds (byteIs 4) := by
  have hproper := fun n (hn : n < 2 ^ 8) => (evaluable_byteIs hn).proper fun _ _ h => h
  have hsetup : byteIsThree.WellSorted := ⟨by simp [signature_byteIsThree],
    fun t ht => asserted_byteIsThree ht ▸ (hproper 3 (by decide)).kind⟩
  have hshort : byteIsThree.ExtensionsBelow (2 ^ 62) :=
    fun t ht => asserted_byteIsThree ht ▸ (hproper 3 (by decide)).short _ (by decide)
  have htells := fun n hn label => (tells_contingent hsetup (hproper n hn).kind label).2 hshort
    ((hproper n hn).short _ (by decide)) "1ms" {} .central
  have hthree : (contingent (propagate "1ms") {} byteIsThree (byteIs 3) "three" .central).1 =
      .ok () := by
    rw [Scenario.contingent_propagate rfl, answer_byteIs (by decide), answer_byteIs (by decide)]
    rfl
  have hfour : (contingent (propagate "1ms") {} byteIsThree (byteIs 4) "four" .central).1 =
      .error (.refuted "four") := by
    rw [Scenario.contingent_propagate rfl, answer_byteIs (by decide), answer_byteIs (by decide)]
    rfl
  refine ⟨⟨hthree, ?_⟩, hfour, ?_⟩
  · exact (htells 3 (by decide) "three").sound .forced (by rw [hthree]; rfl)
  · exact ((htells 4 (by decide) "four").sound .refuted (by rw [hfour]; rfl)).2

end Byte

end CycleCheck
