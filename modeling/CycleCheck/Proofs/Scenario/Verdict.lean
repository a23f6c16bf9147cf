import CycleCheck.Proofs.Scenario.Goal
import CycleCheck.Scenario.Check

/-!
The verdicts on scenarios by propagation. A valid scenario passes if the reference machine, run on
its memory, decodes implemented opcodes only and ends in a state that is as expected. It is refuted
if the state is not as expected, and it is left undetermined if an opcode is not implemented.
-/

namespace CycleCheck

/-! ## Compilation -/

/-- Cycles one after another. -/
theorem Machine.run_add (sys : Machine) (m k : Nat) : sys.run (m + k) =
    match sys.run m with
    | (sys', .error e) => (sys', .error e)
    | (sys', .ok ()) => sys'.run k := by
  induction m generalizing sys with
  | zero => rw [Nat.zero_add, run]
  | succ m ih =>
    rw [Nat.add_right_comm, run, run]
    split
    · rfl
    · exact ih _

namespace Scenario

open Memory CycleCheck.Cycle

/-- The system of a scenario. -/
def machineOptions (s : Scenario) (options : ScenarioOptions) : MachineOptions where
  extensionality := options.extensionality
  registers := some s.registers
  ram := some s.ramImage
  permission := options.permission

/-- How many cycles a scenario takes; eight are those of the reset. -/
def duration (s : Scenario) : Nat := 8 + s.cycles.toNat

theorem runMachine_eq {sys sys₀ sysₙ : Machine} {c : Nat} (hpower : sys.powerOn = (sys₀, .ok ()))
    (hrun : sys₀.run (Machine.resetCycles + c) = (sysₙ, .ok ())) :
    runMachine sys c = .ok sysₙ := by
  rw [Machine.run_add] at hrun
  rw [runMachine, hpower]
  simp only [Machine.reset]
  generalize sys₀.run Machine.resetCycles = after at hrun ⊢
  obtain ⟨sys₁, result⟩ := after
  cases result with
  | error e => cases hrun
  | ok u =>
    simp only at hrun ⊢
    rw [hrun]

variable {s : Scenario} {options : ScenarioOptions}

/-- The ways of a scenario to its system: the ROM is built, a machine is made of it and powered on,
it runs, and the claims are about the machine in the end. -/
structure Stages (s : Scenario) (options : ScenarioOptions) (log : Log) (rom : Cartridge.Rom)
    (sys sys₀ sysₙ : Machine) (ts : List Term) : Prop where
  build : (s.fullCartridge options).build = .ok rom
  ofRom : Machine.ofRom rom (s.machineOptions options) log = .ok sys
  powerOn : sys.powerOn = (sys₀, .ok ())
  run : sys₀.run s.duration = (sysₙ, .ok ())
  claims : s.claims sysₙ = .ok ts

theorem Stages.compile_eq {log : Log} {rom : Cartridge.Rom} {sys sys₀ sysₙ : Machine}
    {ts : List Term} (h : Stages s options log rom sys sys₀ sysₙ ts)
    (hvalid : s.validate = .ok ()) : s.compile options log = .ok (sysₙ, .all ts) := by
  have hcompile : s.compile options log = (do
      s.validate
      let rom ← (s.fullCartridge options).build.mapError (.build s.name)
      let sys ← (Machine.ofRom rom (s.machineOptions options) log).mapError (.system s.name)
      let sys ← (runMachine sys s.cycles.toNat).mapError (.system s.name)
      let claims ← (s.claims sys).mapError (.system s.name)
      pure (sys, .all claims)) := rfl
  rw [hcompile, hvalid, h.build]
  simp only [Except.mapError, bind, Except.bind, h.ofRom, runMachine_eq h.powerOn h.run, h.claims]
  rfl

/-- A valid scenario gets through all stages, if there is a mapper for its cartridge. -/
theorem exists_stages (hvalid : s.validate = .ok ())
    (hrom : ∀ rom, options.rom = some rom → rom.mapper = 0 ∧
      (rom.prg.size = Cartridge.bankSize ∨ rom.prg.size = 2 * Cartridge.bankSize)) (log : Log) :
    ∃ rom sys sys₀ sysₙ ts, Stages s options log rom sys sys₀ sysₙ ts ∧
      Elapsed rom (s.machineOptions options) 0 sys₀ ∧
      Elapsed rom (s.machineOptions options) s.duration sysₙ ∧
      Claims rom s.duration sysₙ ts s.expect.Met := by
  have hs := valid_of_validate hvalid
  obtain ⟨rom, m, hbuild, hm⟩ := exists_rom hs hrom
  obtain ⟨sys, hsys, -⟩ := exists_ofRom hm (s.machineOptions options) log
  have hsize : ∀ data, (s.machineOptions options).ram = some data → data.size ≤ ramSize := by
    rintro _ ⟨⟩
    exact Nat.le_of_eq s.size_ramImage
  obtain ⟨sys₀, sysₙ, hpower, hrun, helapsed⟩ := exists_elapsed hsys hsize s.duration
  obtain ⟨sys₁, _, hpower', ⟨⟩, hstart⟩ := exists_elapsed hsys hsize 0
  cases hpower.symm.trans hpower'
  obtain ⟨ts, hts, hclaims⟩ := exists_claims helapsed hs
  exact ⟨rom, sys, sys₀, sysₙ, ts, ⟨hbuild, hsys, hpower, hrun, hts⟩, hstart, helapsed, hclaims⟩

/-! ## Queries -/

section Query

variable {rom : Cartridge.Rom} {opts : MachineOptions} {n : Nat} {sys : Machine} {ts : List Term}
  {e : Expectation} {b : Bool}

theorem signature_query (f : Formula) (goal : Term) (b : Bool) :
    (query f goal b).signature = f.signature := by
  simp [query]

theorem holds_query {I : Interpretation} :
    I.Holds (if b then .all ts else .not (.all ts)) ↔ ((∀ t ∈ ts, I.Holds t) ↔ b = true) := by
  cases b with
  | true => simp [Interpretation.holds_all]
  | false => simp [Term.not, Interpretation.holds_not, Interpretation.holds_all]

theorem evaluable_query (hts : Claims rom n sys ts e.Met) :
    Term.Evaluable (fun y j => (y, j) ∈ sys.formula.signature)
      (if b then .all ts else .not (.all ts)) .truth := by
  cases b with
  | true => exact .all hts.evaluable
  | false => exact .not (.all hts.evaluable)

theorem sorted_query (h : Elapsed rom opts n sys) (hts : Claims rom n sys ts e.Met) :
    (query sys.formula (.all ts) b).Sorted fun _ _ => False := by
  refine Formula.sorted_append.2 ⟨h.accounted.sorted_formula, Formula.sorted_of_clauses ?_⟩
  have hclause : Clause (fun y j => (y, j) ∈ sys.formula.signature)
      (if b then .all ts else .not (.all ts)) := by
    cases b with
    | true => exact .all hts.clause
    | false => exact .not (.all hts.evaluable)
  intro t ht
  cases List.mem_singleton.1 ht
  exact hclause.mono fun _ _ hx => .inr hx

theorem unique_query (h : Elapsed rom opts n sys) :
    ((query sys.formula (.all ts) b).signature.map Prod.fst).Nodup := by
  rw [signature_query]
  exact h.accounted.unique_formula

/-- The models of a query are the traces whose last state is as expected, or is not. -/
theorem describes_query (h : Elapsed rom opts n sys) (hts : Claims rom n sys ts e.Met) :
    Describes rom opts n (fun s => e.Met s ↔ b = true) (query sys.formula (.all ts) b) := by
  intro I fits
  rw [signature_query] at fits
  rw [query, Interpretation.satisfies_append, h.describes I fits, Interpretation.satisfies_assert,
    holds_query]
  constructor
  · rintro ⟨⟨trace, htrace, hshows, -⟩, hholds, -⟩
    rw [hts.holds hshows] at hholds
    exact ⟨trace, htrace, hshows, hholds⟩
  · rintro ⟨trace, htrace, hshows, hlast⟩
    rw [hts.holds hshows]
    exact ⟨⟨trace, htrace, hshows, trivial⟩, hlast, Interpretation.satisfies_nil⟩

variable {r : Registers} {image : ByteArray}

/-- Along a run with transitions a query has the answer of the last state. -/
theorem solve_query (h : Elapsed rom opts n sys) (hts : Claims rom n sys ts e.Met)
    (hregisters : opts.registers = some r) (hram : opts.ram = some image)
    (hsize : image.size = ramSize) (himplemented : Implemented rom r image n) (b : Bool) :
    ((e.Met (run rom r image n) ↔ b = true) →
      ∃ m, Propagation.solve (query sys.formula (.all ts) b) = .ok (.sat m)) ∧
    (¬ (e.Met (run rom r image n) ↔ b = true) →
      ∃ u, Propagation.solve (query sys.formula (.all ts) b) = .ok (.unsat u)) := by
  have hdetermines := h.determines_run hregisters hram hsize himplemented
  have hgoal : (interpretation rom (run rom r image)).Holds
      (if b then .all ts else .not (.all ts)) ↔ (e.Met (run rom r image n) ↔ b = true) := by
    rw [holds_query, hts.holds (showsTrace_interpretation rom (run rom r image) n)]
  refine ⟨fun hmet => ?_, fun hmet => ?_⟩
  · have hquery := hdetermines.append
      (Propagation.Determines.judged (h.fits _) (evaluable_query hts) (hgoal.2 hmet))
    obtain ⟨q, hsolve, -⟩ := Propagation.solve_of_determines (unique_query h) (by
      rw [signature_query, query, Propagation.assertedTerms_append]
      exact hquery)
    exact ⟨_, hsolve⟩
  · exact Propagation.solve_unsat_of_determines (h.fits _) h.accounted.unique_formula hdetermines
      (evaluable_query hts) (hgoal.not.2 hmet)

/-- If an opcode is not implemented then no query is satisfiable as far as propagation sees, and the
one that the run is a model of is left undetermined. -/
theorem solve_query_of_stop (h : Elapsed rom opts n sys) (hts : Claims rom n sys ts e.Met)
    (hregisters : opts.registers = some r) (hram : opts.ram = some image)
    (hsize : image.size = ramSize) (hfails : ¬ Implemented rom r image n) (b : Bool) :
    (∃ count text, Propagation.solve (query sys.formula (.all ts) b) =
      .error (.undetermined count text)) ∨
    (∃ u, Propagation.solve (query sys.formula (.all ts) b) = .ok (.unsat u)) ∧
      ¬ (e.Met (run rom r image n) ↔ b = true) := by
  obtain ⟨k, hk, hstop⟩ := exists_stop_of_isTrace hregisters hram hsize hfails
  have hopen := undetermined_or_unsat_of_stop (sorted_query (b := b) h hts) (unique_query h)
    (describes_query h hts) (fun trace => by rw [signature_query]; exact h.fits trace)
    (by rw [signature_query]; exact h.address_mem hk)
    (fun s s' halike hs => (Expectation.met_congr halike).trans hs) hk hstop
  refine hopen.imp_right fun ⟨hunsat, hnone⟩ => ⟨hunsat, ?_⟩
  exact hnone _ (isTrace_run hregisters hram (Nat.le_of_eq hsize) n)

end Query

/-! ## Verdicts -/

/-- What propagation answers to a formula. -/
def answer (f : Formula) : Except CheckError Solver.Verdict :=
  match Propagation.solve f with
  | .error e => .error (.solver (.propagation e))
  | .ok (.sat _) => .ok .sat
  | .ok (.unsat _) => .ok .unsat

theorem contingent_propagate {ctx : Solver.Context} (hctx : ctx.done = false) (elapsed : String)
    (setup : Formula) (goal : Term) (label : String) (log : Log) :
    (contingent (Solver.propagate elapsed) ctx setup goal label log).1 =
      (answer (query setup goal true) >>= fun holds =>
        answer (query setup goal false) >>= fun fails => outcome label holds fails) := by
  unfold contingent answer
  simp only [Solver.propagate, Solver.Question.ofFormula, hctx, Bool.false_eq_true, if_false]
  rcases Propagation.solve (query setup goal true) with e | (m | u)
  · rfl
  · rcases Propagation.solve (query setup goal false) with e' | (m' | u') <;> rfl
  · rcases Propagation.solve (query setup goal false) with e' | (m' | u') <;> rfl

/-- What the verdict on a scenario says of the run of the reference machine on its memory. -/
structure Judged (s : Scenario) (rom : Cartridge.Rom) (result : Except CheckError Unit) : Prop where
  passes : result = .ok () ↔ Implemented rom s.registers s.ramImage s.duration ∧
    s.expect.Met (run rom s.registers s.ramImage s.duration)
  refuted : result = .error (.refuted s.name) ↔ Implemented rom s.registers s.ramImage s.duration ∧
    ¬ s.expect.Met (run rom s.registers s.ramImage s.duration)
  undetermined : (∃ e, result = .error e ∧ e.fault.has
    "propagate: undetermined (%d assertions unresolved, first is %s)" = true) ↔
      ¬ Implemented rom s.registers s.ramImage s.duration
  not_vacuous : ∀ label, result ≠ .error (.vacuous label)
  not_contradictory : ∀ label, result ≠ .error (.contradictory label)

section Judged

variable {rom : Cartridge.Rom}

theorem judged_ok (himplemented : Implemented rom s.registers s.ramImage s.duration)
    (hmet : s.expect.Met (run rom s.registers s.ramImage s.duration)) :
    Judged s rom (.ok ()) := by
  constructor <;> simp [himplemented, hmet]

theorem judged_refuted (himplemented : Implemented rom s.registers s.ramImage s.duration)
    (hmet : ¬ s.expect.Met (run rom s.registers s.ramImage s.duration)) :
    Judged s rom (.error (.refuted s.name)) := by
  constructor <;> simp [himplemented, hmet, CheckError.fault, Fault.has, Fault.anyHas,
    Fault.datumHas]

theorem judged_undetermined (hfails : ¬ Implemented rom s.registers s.ramImage s.duration)
    (count : Nat) (text : String) :
    Judged s rom (.error (.solver (.propagation (.undetermined count text)))) := by
  constructor <;> simp [hfails, CheckError.fault, Solver.SolverError.fault,
    Propagation.PropagationError.fault, Fault.has, Fault.anyHas, Fault.datumHas]

end Judged

/-- Propagation judges valid scenarios as the reference machine does. -/
theorem judged_check (hvalid : s.validate = .ok ())
    (hrom : ∀ rom, options.rom = some rom → rom.mapper = 0 ∧
      (rom.prg.size = Cartridge.bankSize ∨ rom.prg.size = 2 * Cartridge.bankSize))
    {ctx : Solver.Context} (hctx : ctx.done = false) (elapsed : String) (log : Log) :
    ∃ rom, (s.fullCartridge options).build = .ok rom ∧
      Judged s rom (s.check (Solver.propagate elapsed) ctx options log).1 := by
  obtain ⟨rom, _, _, sys, ts, hstages, -, helapsed, hts⟩ := exists_stages hvalid hrom log
  refine ⟨rom, hstages.build, ?_⟩
  have hcheck : (s.check (Solver.propagate elapsed) ctx options log).1 =
      (answer (query sys.formula (.all ts) true) >>= fun holds =>
        answer (query sys.formula (.all ts) false) >>= fun fails => outcome s.name holds fails) := by
    have hlog : (Solver.propagate elapsed).log log = log := rfl
    rw [check, hlog, hstages.compile_eq hvalid]
    exact contingent_propagate hctx ..
  rw [hcheck]
  by_cases himplemented : Implemented rom s.registers s.ramImage s.duration
  · have hsolve := solve_query helapsed hts rfl rfl s.size_ramImage himplemented
    by_cases hmet : s.expect.Met (run rom s.registers s.ramImage s.duration)
    · obtain ⟨m, hholds⟩ := (hsolve true).1 (by simp [hmet])
      obtain ⟨u, hfails⟩ := (hsolve false).2 (by simp [hmet])
      rw [answer, hholds, answer, hfails]
      exact judged_ok himplemented hmet
    · obtain ⟨u, hholds⟩ := (hsolve true).2 (by simp [hmet])
      obtain ⟨m, hfails⟩ := (hsolve false).1 (by simp [hmet])
      rw [answer, hholds, answer, hfails]
      exact judged_refuted himplemented hmet
  · have hsolve := solve_query_of_stop helapsed hts rfl rfl s.size_ramImage himplemented
    rcases hsolve true with ⟨count, text, hholds⟩ | ⟨⟨u, hholds⟩, hmet⟩
    · rw [answer, hholds]
      exact judged_undetermined himplemented count text
    · -- the run is a model of the negation, so that the second query is open
      obtain ⟨count, text, hfails⟩ := (hsolve false).resolve_right fun h => h.2 (by simpa using hmet)
      rw [answer, hholds, answer, hfails]
      exact judged_undetermined himplemented count text

/-- An instruction with the operand 66 at address zero, and a byte that is expected in the
accumulator. -/
def immediate (opcode expected : UInt8) : Scenario where
  name := "immediate"
  program := [opcode, 0x42]
  cycles := 2
  expect := { a := some expected, p := "..-...z." }

/-- On a bank of zeros a load puts 66 into the accumulator and clears the zero flag; opcode 2 is not
implemented. -/
theorem judged_check_immediate :
    ((immediate 0xA9 66).check (Solver.propagate "1ms") {}
      { rom := some ⟨"", 0, Bytes.zeros 16384⟩ } .central).1 = .ok () ∧
    ((immediate 0xA9 67).check (Solver.propagate "1ms") {}
      { rom := some ⟨"", 0, Bytes.zeros 16384⟩ } .central).1 = .error (.refuted "immediate") ∧
    ∃ e, ((immediate 2 66).check (Solver.propagate "1ms") {}
        { rom := some ⟨"", 0, Bytes.zeros 16384⟩ } .central).1 = .error e ∧
      e.fault.has "propagate: undetermined (%d assertions unresolved, first is %s)" = true := by
  let options : ScenarioOptions := { rom := some ⟨"", 0, Bytes.zeros 16384⟩ }
  have hrom : ∀ rom, options.rom = some rom → rom.mapper = 0 ∧
      (rom.prg.size = Cartridge.bankSize ∨ rom.prg.size = 2 * Cartridge.bankSize) := by
    rintro _ ⟨⟩
    exact ⟨rfl, .inl (Bytes.size_zeros _)⟩
  have hctx : ({} : Solver.Context).done = false := rfl
  have harea : areaOf 0 = .ram := by decide
  have hbuild : ∀ opcode expected, ((immediate opcode expected).fullCartridge options).build =
      .ok ⟨"", 0, Bytes.zeros 16384⟩ := by
    intro opcode expected
    rw [fullCartridge, show (immediate opcode expected).origin = 0 from rfl, if_pos harea]
    simp [options, immediate, cartridge, ByteMap.entriesOf, Cartridge.Builder.name,
      Cartridge.Builder.mapper, Cartridge.Builder.prg, Cartridge.Builder.step,
      Cartridge.Builder.build, Cartridge.bankSize]
  have hjudged : ∀ opcode expected, (immediate opcode expected).validate = .ok () →
      Judged (immediate opcode expected) ⟨"", 0, Bytes.zeros 16384⟩
        ((immediate opcode expected).check (Solver.propagate "1ms") {} options .central).1 := by
    intro opcode expected hvalid
    obtain ⟨rom, hrom, h⟩ := judged_check hvalid hrom hctx "1ms" .central
    rw [hbuild] at hrom
    cases hrom
    exact h
  -- only two bytes are not zero, so that the run is one on small memories
  have hrun : ∀ opcode expected r, run ⟨"", 0, Bytes.zeros 16384⟩ r
      (immediate opcode expected).ramImage = run ⟨"", 0, .empty⟩ r
        (Bytes.put (Bytes.put (Bytes.zeros 2) 0 opcode) 1 0x42) := by
    intro opcode expected r
    refine run_congr (fun i => get_zeros ..) ?_ r
    funext i
    rw [ramImage, show (immediate opcode expected).origin = 0 from rfl, if_pos harea]
    simp [immediate, placeBytes, ByteMap.entriesOf, cellsOf, Bytes.get_put, get_zeros, ramSize]
  refine ⟨(hjudged 0xA9 66 rfl).passes.2 ⟨?_, ?_⟩, (hjudged 0xA9 67 rfl).refuted.2 ⟨?_, ?_⟩,
    (hjudged 2 66 rfl).undetermined.2 ?_⟩
  all_goals simp only [Implemented, hrun]
  all_goals decide +kernel

end Scenario

end CycleCheck
