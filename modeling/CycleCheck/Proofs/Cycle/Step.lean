import CycleCheck.Proofs.Cycle.Phase

/-!
A cycle: the processor and then the bus. Its blocks say that the values after it are a step of the
reference machine from the values before it.
-/

namespace CycleCheck.Cycle

open Processor Memory

/-- The values of version `k` are the state `s`, and the bus does the access of `s` with `m` in RAM
before it. -/
structure Shows (rom : Cartridge.Rom) (k : Nat) (m : Cells) (s : State) (I : Interpretation) :
    Prop where
  values : ∀ v : Variable, version I k v.name = signal s.cpu s.dataIn v
  ram : version I (2 * k + 2) Ram.memory = .array 11 8 s.ram
  middle : version I (2 * k + 1) Ram.memory = .array 11 8 (s.cpu.storePage 0 m)
  inputs : ∀ page, PageInputs (version I k) s.cpu page
  answers : ∀ page : Fin 16, version I k (Wire.answer page).name =
    .bits 8 (s.cpu.answer rom page (s.cpu.before page m))

theorem forall_variable_iff {P : Variable → Prop} :
    (∀ v, P v) ↔ (∀ v ∈ Variable.outputs, P v) ∧ P .dataIn := by
  refine ⟨fun h => ⟨fun v _ => h v, h .dataIn⟩, fun ⟨houtputs, hdata⟩ v => ?_⟩
  by_cases hv : v ∈ Variable.outputs
  · exact houtputs v hv
  · cases v <;> first | exact hdata | exact absurd (by decide) hv

theorem values_iff {e : Valuation} {c : Cpu} {d : BitVec 8} :
    (∀ v : Variable, e v.name = signal c d v) ↔
      ShowsCpu e c ∧ e Variable.dataIn.name = .bits 8 d := by
  rw [forall_variable_iff]
  refine and_congr_left' (forall₂_congr fun v hv => ?_)
  rw [signal_of_output hv c d 0]

/-- A state after the access of the bus is shown exactly if its outputs and the phase are. -/
theorem shows_iff {rom : Cartridge.Rom} {k : Nat} {m : Cells} {s : State} {I : Interpretation}
    (hram : s.ram = s.cpu.store m) (hdata : s.dataIn = s.cpu.respond rom m) :
    Shows rom k m s I ↔ ShowsCpu (version I k) s.cpu ∧ Phase rom k s.cpu m I := by
  constructor
  · intro h
    obtain ⟨hcpu, hin⟩ := values_iff.1 h.values
    exact ⟨hcpu, h.inputs, h.answers, h.middle, hram ▸ h.ram, hdata ▸ hin⟩
  · rintro ⟨hcpu, hphase⟩
    exact ⟨values_iff.2 ⟨hcpu, hdata ▸ hphase.dataIn⟩, hram ▸ hphase.ram, hphase.middle,
      hphase.inputs, hphase.answers⟩

/-! ## A cycle -/

theorem cycle_at {t : Timeline} {k : Nat} (ht : At t (Wire.count k true 16 true)) :
    At (t.advance Processor.standard.cycle.writes) (Wire.count (k + 1) false 0 false) := by
  have hwrites :
      Processor.standard.cycle.writes = (Variable.outputs.map Wire.cpu).map Wire.name := by
    rw [List.map_map]
    rfl
  rw [hwrites]
  refine ht.advance _ fun w => ?_
  cases w with
  | cpu v => cases v <;> simp [Variable.outputs, Wire.count]
  | answer page => simp [Wire.count]
  | select | address | write | data | ram | prg => simp [Wire.count] <;> omega

/-- What the cycle after phase `k` finds. -/
structure StepStart (rom : Cartridge.Rom) (k : Nat) (s : State) (I : Interpretation) : Prop where
  values : ∀ v : Variable, version I k v.name = signal s.cpu s.dataIn v
  ram : version I (2 * k + 2) Ram.memory = .array 11 8 s.ram
  prg : version I 0 Cartridge.Mapper.prg = content rom

theorem cycle_compiles (rom : Cartridge.Rom) {t : Timeline} {k : Nat}
    (ht : At t (Wire.count k true 16 true)) :
    t.Compiles [Processor.standard.cycle] (t.advance Processor.standard.cycle.writes)
      (StepStart rom k)
      (fun s I => ∃ u : Cpu × Cells, ShowsCpu (version I (k + 1)) u.1 ∧ u.2 = s.ram ∧
        ∀ c, s.cpu.next? s.dataIn = some c → u.1 = c) := by
  refine ht.compiles (cycle_means.comap fun s : State => (s.cpu, s.dataIn)) ?_ ?_ ?_ ?_
  · intro x hx
    obtain ⟨v, -, rfl⟩ := List.mem_map.1 hx
    exact ⟨.cpu v, by cases v <;> simp [Wire.count], rfl⟩
  · intro x hx
    obtain ⟨v, -, rfl⟩ := List.mem_map.1 hx
    exact ⟨.cpu v, rfl⟩
  · intro s I h v
    have hlatest := ht.latest I (.cpu v)
    have hcount : (Wire.cpu v).count k true 16 true = k + 1 := by
      cases v <;> simp [Wire.count]
    rw [hcount] at hlatest
    exact hlatest.trans (h.values v)
  · intro s I _
    have hfresh : ∀ c, ShowsCpu (fun x => I (t.fresh x).name) c ↔
        ShowsCpu (version I (k + 1)) c := by
      refine fun c => forall₂_congr fun v hv => ?_
      have hcount : (Wire.cpu v).count k true 16 true = k + 1 := by
        cases v <;> simp [Wire.count]
      have hversion := ht.fresh I (.cpu v)
      rw [hcount] at hversion
      exact iff_of_eq (congrArg (· = _) hversion)
    constructor
    · rintro ⟨c, hc, hnext⟩
      exact ⟨(c, s.ram), (hfresh c).1 hc, rfl, hnext⟩
    · rintro ⟨⟨c, m⟩, hc, -, hnext⟩
      exact ⟨c, (hfresh c).2 hc, hnext⟩

/-- The blocks of a cycle say that the values after it are a step from the values before it. -/
theorem step_compiles {rom : Cartridge.Rom} {sys : Machine} (hsys : Built rom sys) {t : Timeline}
    {k : Nat} (ht : At t (Wire.count k true 16 true)) :
    ∃ t', At t' (Wire.count (k + 1) true 16 true) ∧
      t.Compiles (sys.processor.cycle :: sys.busPhase) t' (StepStart rom k)
        (fun s I => ∃ s', Step rom s s' ∧ Shows rom (k + 1) s.ram s' I) := by
  obtain ⟨t', ht', hphase⟩ := phase_compiles hsys (cycle_at ht)
  rw [hsys.processor]
  refine ⟨t', ht', ((cycle_compiles rom ht).andThen hphase ?_).congr ?_⟩
  · rintro s u I hs ⟨hcpu, hm, -⟩
    exact ⟨hcpu, hm ▸ hs.ram, hs.prg⟩
  · intro s I _
    constructor
    · rintro ⟨⟨c, m⟩, ⟨hcpu, rfl, hnext⟩, hphase⟩
      exact ⟨⟨c, c.respond rom s.ram, c.store s.ram⟩, ⟨hnext, rfl, rfl⟩,
        (shows_iff rfl rfl).2 ⟨hcpu, hphase⟩⟩
    · rintro ⟨s', hstep, hshows⟩
      obtain ⟨hc, hphase⟩ := (shows_iff hstep.ram hstep.dataIn).1 hshows
      exact ⟨(s'.cpu, s.ram), ⟨hc, rfl, hstep.cpu⟩, hphase⟩

end CycleCheck.Cycle
