import CycleCheck.Proofs.Cycle.PowerOn

/-!
The compiler is exact. An interpretation of the declared symbols satisfies the formula after power
on and any number of cycles if and only if its values are a trace of the reference machine.
-/

namespace CycleCheck.Cycle

open Processor Memory

/-! ## Machines before power on -/

/-- A machine that was made from a ROM and did nothing since. -/
structure Assembled (rom : Cartridge.Rom) (options : MachineOptions) (sys : Machine) : Prop
    extends Built rom sys where
  options : sys.options = options
  timeline : sys.timeline = {}
  fragments : sys.fragments = []
  off : sys.poweredOn = false

theorem exists_ofRom {rom : Cartridge.Rom} {m : Cartridge.Mapper}
    (hm : Cartridge.Mapper.ofRom rom = .ok m) (options : MachineOptions) (log : Log) :
    ∃ sys, Machine.ofRom rom options log = .ok sys ∧ Assembled rom options sys := by
  let ram : Ram := ⟨options.extensionality⟩
  let made (handlers : List PageHandler) : Machine :=
    { processor := .standard, ram, mapper := m, handlers, options, log }
  choose pages hpages hserves using exists_handlerOf ram (mapsTo_of_ofRom hm)
  have hhandlers : (List.range pageCount).mapM (Machine.handlerOf ram m) =
      .ok ((List.finRange 16).map pages) := by
    rw [pageCount, ← List.map_coe_finRange_eq_range, List.mapM_map]
    simp only [Function.comp_def, hpages]
    exact List.mapM_pure
  have hsys : Machine.ofRom rom options log = .ok (made ((List.finRange 16).map pages)) := by
    rw [Machine.ofRom, hm]
    change ((List.range pageCount).mapM (Machine.handlerOf ram m) >>= fun hs => pure (made hs)) = _
    rw [hhandlers]
    rfl
  exact ⟨_, hsys, ⟨rfl, mapsTo_of_ofRom hm, pages, rfl, hserves⟩, rfl, rfl, rfl, rfl⟩

/-- A bank of zeros makes a machine. -/
theorem exists_ofRom_bank (options : MachineOptions) (log : Log) :
    ∃ sys, Machine.ofRom ⟨"", 0, Bytes.zeros 16384⟩ options log = .ok sys := by
  have hsize : (Bytes.zeros 16384).size = Cartridge.bankSize := Array.size_replicate
  have hm : Cartridge.Mapper.ofRom ⟨"", 0, Bytes.zeros 16384⟩ =
      .ok ⟨⟨"", 0, Bytes.zeros 16384⟩, 14⟩ := by
    rw [Cartridge.Mapper.ofRom, if_neg (by simp), if_pos hsize]
  obtain ⟨sys, hsys, -⟩ := exists_ofRom hm options log
  exact ⟨sys, hsys⟩

theorem assembled_of_ofRom {rom : Cartridge.Rom} {options : MachineOptions} {log : Log}
    {sys : Machine} (h : Machine.ofRom rom options log = .ok sys) :
    Assembled rom options sys := by
  cases hm : Cartridge.Mapper.ofRom rom with
  | error e =>
    rw [Machine.ofRom, hm] at h
    cases h
  | ok m =>
    obtain ⟨sys', hsys', hassembled⟩ := exists_ofRom hm options log
    obtain rfl := Except.ok.inj (h.symm.trans hsys')
    exact hassembled

/-! ## Runs -/

/-- A machine after power on and `k` cycles. -/
structure Running (rom : Cartridge.Rom) (k : Nat) (sys : Machine) : Prop extends Built rom sys where
  on : sys.poweredOn = true
  timeline : At sys.timeline (Wire.count k true 16 true)

theorem exists_powerOn {rom : Cartridge.Rom} {options : MachineOptions} {sys : Machine}
    (h : Assembled rom options sys)
    (hsize : ∀ data, options.ram = some data → data.size ≤ ramSize) :
    ∃ sys₀, sys.powerOn = (sys₀, .ok ()) ∧ Running rom 0 sys₀ ∧
      sys.Grows sys₀ (fun (_ : Unit) _ => True)
        (fun _ I => ∃ s, Initial rom options s ∧ version I 0 Ram.memory = .array 11 8 s.ram ∧
          version I 0 Cartridge.Mapper.prg = content rom ∧ Shows rom 0 s.ram s I) := by
  have hsize' : ∀ data, sys.options.ram = some data → data.size ≤ ramSize := by
    rw [h.options]
    exact hsize
  obtain ⟨bs, t, hbs, ht, hcompiles⟩ := powerOn_compiles h.toBuilt hsize'
  rw [← h.timeline, h.options] at hcompiles
  obtain ⟨fragments, size, log, happly, hgrows⟩ := Machine.exists_apply hcompiles "power on"
  refine ⟨{ sys with timeline := t, fragments, size, log, poweredOn := true }, ?_,
    ⟨⟨h.processor, h.mapper, h.handlers⟩, rfl, ht⟩, hgrows _ rfl⟩
  rw [Machine.powerOn, h.off, hbs]
  simp only [happly]
  rfl

/-- One cycle makes the formula grow by a step. -/
theorem exists_step {rom : Cartridge.Rom} {k : Nat} {sys : Machine} (h : Running rom k sys) :
    ∃ sys', sys.step = (sys', .ok ()) ∧ Running rom (k + 1) sys' ∧
      sys.Grows sys' (StepStart rom k)
        (fun s I => ∃ s', Step rom s s' ∧ Shows rom (k + 1) s.ram s' I) := by
  obtain ⟨t, ht, hcompiles⟩ := step_compiles h.toBuilt h.timeline
  obtain ⟨fragments, size, log, happly, hgrows⟩ := Machine.exists_apply hcompiles
    ("cycle " ++ Text.decimal (sys.cycles + 1))
  refine ⟨{ sys with timeline := t, fragments, size, log, cycles := sys.cycles + 1 }, ?_,
    ⟨⟨h.processor, h.mapper, h.handlers⟩, h.on, ht⟩, hgrows _ rfl⟩
  rw [Machine.step, if_neg (by simp [h.on]), happly]

/-- The states of `n` cycles after phase `k`, and the values that show them. -/
structure IsRun (rom : Cartridge.Rom) (k n : Nat) (trace : Nat → State) (I : Interpretation) :
    Prop where
  step : ∀ j < n, Step rom (trace j) (trace (j + 1))
  shown : ∀ j < n, Shows rom (k + j + 1) (trace j).ram (trace (j + 1)) I

theorem isRun_succ_iff {rom : Cartridge.Rom} {k n : Nat} {s : State} {I : Interpretation} :
    (∃ trace, trace 0 = s ∧ IsRun rom k (n + 1) trace I) ↔
      ∃ s', (Step rom s s' ∧ Shows rom (k + 1) s.ram s' I) ∧
        ∃ trace, trace 0 = s' ∧ IsRun rom (k + 1) n trace I := by
  constructor
  · rintro ⟨trace, rfl, hrun⟩
    refine ⟨trace 1, ⟨hrun.step 0 (Nat.succ_pos n), hrun.shown 0 (Nat.succ_pos n)⟩,
      fun j => trace (j + 1), rfl, fun j hj => hrun.step (j + 1) (by omega), fun j hj => ?_⟩
    have hshown := hrun.shown (j + 1) (by omega)
    rwa [show k + (j + 1) + 1 = k + 1 + j + 1 by omega] at hshown
  · rintro ⟨s', ⟨hstep, hshows⟩, trace, rfl, hrun⟩
    refine ⟨fun j => Nat.casesOn j s trace, rfl, fun j hj => ?_, fun j hj => ?_⟩
    · cases j with
      | zero => exact hstep
      | succ j => exact hrun.step j (by omega)
    · cases j with
      | zero => exact hshows
      | succ j =>
        rw [show k + (j + 1) + 1 = k + 1 + j + 1 by omega]
        exact hrun.shown j (by omega)

/-- Any number of cycles makes the formula grow by a run. -/
theorem exists_run {rom : Cartridge.Rom} (n : Nat) {k : Nat} {sys : Machine}
    (h : Running rom k sys) :
    ∃ sys', sys.run n = (sys', .ok ()) ∧ Running rom (k + n) sys' ∧
      sys.Grows sys' (StepStart rom k)
        (fun s I => ∃ trace, trace 0 = s ∧ IsRun rom k n trace I) := by
  induction n generalizing k sys with
  | zero =>
    refine ⟨sys, rfl, h, [], (List.append_nil _).symm, fun s I _ _ => iff_of_true (by simp) ?_⟩
    exact ⟨fun _ => s, rfl, by simp, by simp⟩
  | succ n ih =>
    obtain ⟨sys₁, hstep, hrunning, hgrows⟩ := exists_step h
    obtain ⟨sys', hrun, hrunning', hgrows'⟩ := ih hrunning
    refine ⟨sys', ?_, by rwa [show k + (n + 1) = k + 1 + n by omega],
      (hgrows.andThen hgrows' ?_).congr fun s I _ => isRun_succ_iff.symm⟩
    · rw [Machine.run, hstep]
      exact hrun
    · rintro s s' I hs ⟨-, hshows⟩
      exact ⟨hshows.values, hshows.ram, hs.prg⟩

/-! ## Exactness -/

/-- The values of an interpretation are a trace: version `k` of the variables of the processor, the
last version of RAM in phase `k`, and all that is inside the phase. -/
structure ShowsTrace (rom : Cartridge.Rom) (n : Nat) (trace : Nat → State) (I : Interpretation) :
    Prop where
  prg : version I 0 Cartridge.Mapper.prg = content rom
  start : version I 0 Ram.memory = .array 11 8 (trace 0).ram
  shown : ∀ k ≤ n, Shows rom k (trace (k - 1)).ram (trace k) I

theorem isTrace_iff {rom : Cartridge.Rom} {options : MachineOptions} {n : Nat}
    {trace : Nat → State} {I : Interpretation} :
    IsTrace rom options n trace ∧ ShowsTrace rom n trace I ↔
      (Initial rom options (trace 0) ∧ version I 0 Ram.memory = .array 11 8 (trace 0).ram ∧
        version I 0 Cartridge.Mapper.prg = content rom ∧ Shows rom 0 (trace 0).ram (trace 0) I) ∧
      IsRun rom 0 n trace I := by
  constructor
  · rintro ⟨htrace, hshows⟩
    refine ⟨⟨htrace.start, hshows.start, hshows.prg, hshows.shown 0 (Nat.zero_le n)⟩,
      htrace.step, fun j hj => ?_⟩
    rw [Nat.zero_add]
    exact hshows.shown (j + 1) hj
  · rintro ⟨⟨hinitial, hstart, hprg, hfirst⟩, hrun⟩
    refine ⟨⟨hinitial, hrun.step⟩, hprg, hstart, fun k hk => ?_⟩
    cases k with
    | zero => exact hfirst
    | succ k =>
      have hshown := hrun.shown k hk
      rwa [Nat.zero_add] at hshown

/-- An interpretation of the declared symbols satisfies the formula of power on and `n` cycles if
and only if its values are a trace of the reference machine. -/
theorem satisfies_formula_iff_trace {rom : Cartridge.Rom} {options : MachineOptions} {log : Log}
    {sys : Machine} (hsys : Machine.ofRom rom options log = .ok sys)
    (hsize : ∀ data, options.ram = some data → data.size ≤ ramSize) (n : Nat) :
    ∃ sys₀ sysₙ, sys.powerOn = (sys₀, .ok ()) ∧ sys₀.run n = (sysₙ, .ok ()) ∧
      ∀ I : Interpretation, I.Fits sysₙ.formula.signature →
        (I.Satisfies sysₙ.formula ↔
          ∃ trace, IsTrace rom options n trace ∧ ShowsTrace rom n trace I) := by
  have hassembled := assembled_of_ofRom hsys
  obtain ⟨sys₀, hpower, hrunning, hgrows⟩ := exists_powerOn hassembled hsize
  obtain ⟨sysₙ, hrun, -, hgrows'⟩ := exists_run n hrunning
  refine ⟨sys₀, sysₙ, hpower, hrun, fun I fits => ?_⟩
  obtain ⟨f, hformula, hf⟩ := hgrows.andThen hgrows'
    fun _ s I _ h => ⟨h.2.2.2.values, h.2.2.2.ram, h.2.2.1⟩
  have hempty : sys.formula = [.logic ⟨"QF_ABV"⟩] := by
    rw [Machine.formula_eq, hassembled.fragments]
    rfl
  rw [hformula, hempty] at fits ⊢
  rw [Interpretation.satisfies_append, hf () I (Interpretation.fits_append.1 fits).2 trivial]
  constructor
  · rintro ⟨-, _, hinitial, trace, rfl, hrun⟩
    exact ⟨trace, isTrace_iff.2 ⟨hinitial, hrun⟩⟩
  · rintro ⟨trace, htrace⟩
    obtain ⟨hinitial, hrun⟩ := isTrace_iff.1 htrace
    exact ⟨by simp [Interpretation.Satisfies], trace 0, hinitial, trace, rfl, hrun⟩

/-- A bank of zeros, with extensionality and three bytes of RAM: the reset and one more cycle. -/
theorem satisfies_formula_iff_trace_zeros : ∃ sys sys₀ sys₉,
    Machine.ofRom ⟨"", 0, Bytes.zeros 16384⟩
      { extensionality := true, ram := some ⟨#[1, 2, 3]⟩ } = .ok sys ∧
    sys.powerOn = (sys₀, .ok ()) ∧ sys₀.run 9 = (sys₉, .ok ()) ∧
      ∀ I : Interpretation, I.Fits sys₉.formula.signature →
        (I.Satisfies sys₉.formula ↔
          ∃ trace, IsTrace ⟨"", 0, Bytes.zeros 16384⟩
              { extensionality := true, ram := some ⟨#[1, 2, 3]⟩ } 9 trace ∧
            ShowsTrace ⟨"", 0, Bytes.zeros 16384⟩ 9 trace I) := by
  have hsize : (Bytes.zeros 16384).size = Cartridge.bankSize := Array.size_replicate
  have hm : Cartridge.Mapper.ofRom ⟨"", 0, Bytes.zeros 16384⟩ =
      .ok ⟨⟨"", 0, Bytes.zeros 16384⟩, 14⟩ := by
    rw [Cartridge.Mapper.ofRom, if_neg (by simp), if_pos hsize]
  obtain ⟨sys, hsys, -⟩ := exists_ofRom hm
    { extensionality := true, ram := some ⟨#[1, 2, 3]⟩ } .central
  obtain ⟨sys₀, sys₉, hpower, hrun, hiff⟩ := satisfies_formula_iff_trace hsys
    (by rintro _ ⟨⟩; decide) 9
  exact ⟨sys, sys₀, sys₉, hsys, hpower, hrun, hiff⟩

end CycleCheck.Cycle
