import CycleCheck.Proofs.Cartridge.Builder

/-!
The cartridge of a scenario as the steps of a builder: the given ROM if there is one, the reset
vector, the program and single bytes. What they write is told by their history; they keep the mapper
and the size of the given ROM.
-/

namespace CycleCheck

namespace Cartridge

/-- The mapper number that a step gives. -/
def BuilderStep.mapper? : BuilderStep → Option Nat
  | .mapper n => some n.toNat
  | _ => none

namespace Builder

theorem mapper_step {b : Builder} {f : Rom → Except BuildError Rom} {n : Nat}
    (hf : ∀ rom, f b.rom = .ok rom → rom.mapper = n) (hok : (b.step f).error = none) :
    (b.step f).rom.mapper = n := by
  obtain ⟨rom, hrom, hstep⟩ := step_of_error_none hok
  rw [hstep]
  exact hf rom hrom

theorem mapper_perform {b : Builder} {s : BuilderStep} (hok : (b.perform s).error = none) :
    (b.perform s).rom.mapper = s.mapper?.getD b.rom.mapper := by
  have hwrite : ∀ address data, (b.write address data).error = none →
      (b.write address data).rom.mapper = b.rom.mapper := by
    refine fun address data => mapper_step fun rom hrom => ?_
    obtain ⟨prg, -, rfl⟩ := poke_of_write hrom
    rfl
  cases s with
  | name s => rfl
  | write address data => exact hwrite _ _ hok
  | vector address v => exact hwrite _ _ hok
  | mapper n | prg data | banks n =>
    refine mapper_step (fun rom hrom => ?_) hok
    split_ifs at hrom
    cases hrom
    rfl

/-- The last number that is given is the mapper number of the ROM. -/
theorem mapper_after {steps : List BuilderStep} (hok : (after steps).error = none) :
    (after steps).rom.mapper = steps.foldl (fun n s => s.mapper?.getD n) 0 := by
  induction steps using List.reverseRecOn with
  | nil => rfl
  | append_singleton steps s ih =>
    have hnone := error_none_of_append hok
    rw [after_concat] at hok ⊢
    rw [mapper_perform hok, ih hnone, List.foldl_append]
    rfl

end Builder

end Cartridge

namespace Scenario

open Memory Cartridge

/-- The bytes of a map with their addresses. -/
def ByteMap.written (m : Option ByteMap) : List (Nat × UInt8) :=
  (entriesOf m).map fun e => (e.1.toNat, e.2)

/-- The reset vector that is written, if one is. -/
def writtenVector? (s : Scenario) (options : ScenarioOptions) : Option UInt16 :=
  match options.rom with
  | some _ => s.vector
  | none => some (s.vector.getD s.origin)

/-- The size of the ROM; it is one bank if none is given. -/
def prgSize (options : ScenarioOptions) : Nat := options.rom.elim bankSize fun rom => rom.prg.size

/-- The steps of the builder of a scenario. -/
def builderSteps (s : Scenario) (options : ScenarioOptions) : List BuilderStep :=
  .name s.name ::
    (options.rom.elim [] fun rom => [.name rom.name, .mapper rom.mapper, .prg rom.prg]) ++
    ((s.writtenVector? options).elim [] fun v => [.vector 0xfffc v]) ++
    (if areaOf s.origin = .ram then [] else [.write s.origin s.program]) ++
    (ByteMap.entriesOf s.prg).map fun e => .write e.1 [e.2]

section Steps

variable (s : Scenario) (options : ScenarioOptions)

theorem fullCartridge_eq_after : s.fullCartridge options = Builder.after (s.builderSteps options) := by
  have hbytes : ∀ (es : List (UInt16 × UInt8)) (b : Builder),
      es.foldl (fun b e => b.write e.1.toNat [e.2]) b =
        (es.map fun e => BuilderStep.write e.1 [e.2]).foldl Builder.perform b := by
    intro es b
    rw [List.foldl_map]
    rfl
  have hvector : (0xfffc : UInt16).toNat = Processor.resetVectorLow := rfl
  rw [fullCartridge, cartridge, Builder.after, builderSteps, writtenVector?, hbytes]
  cases options.rom with
  | none => split_ifs <;> simp [Builder.perform, hvector]
  | some rom => cases s.vector <;> split_ifs <;> simp [Builder.perform, hvector]

/-- No step makes a number of banks. -/
theorem banks_lt_of_mem_builderSteps (n : Int) (h : BuilderStep.banks n ∈ s.builderSteps options) :
    n < 2 ^ 49 := by
  rw [builderSteps] at h
  revert h
  cases options.rom <;> cases s.writtenVector? options <;> split_ifs <;> simp

/-- The bytes that are written, from the vector on. -/
theorem history_builderSteps : History.of (s.builderSteps options) =
    ⟨options.rom.elim (Bytes.zeros bankSize) Rom.prg,
      ((s.writtenVector? options).elim [] fun v =>
        addressed 0xfffc [v.toUInt8, (v >>> 8).toUInt8]) ++
      (if areaOf s.origin = .ram then [] else addressed s.origin.toNat s.program) ++
      ByteMap.written s.prg⟩ := by
  have hbytes : ∀ (es : List (UInt16 × UInt8)) (h : History),
      (es.map fun e => BuilderStep.write e.1 [e.2]).foldl History.add h =
        ⟨h.base, h.written ++ es.map fun e => (e.1.toNat, e.2)⟩ := by
    intro es
    induction es with
    | nil => simp
    | cons e rest ih =>
      intro h
      rw [List.map_cons, List.foldl_cons, ih]
      simp [History.add, BuilderStep.content?, BuilderStep.bytes, addressed]
  rw [builderSteps, History.of, List.foldl_append, hbytes, ByteMap.written]
  cases options.rom <;> cases s.writtenVector? options <;> split_ifs <;>
    simp [History.add, BuilderStep.content?, BuilderStep.bytes]

theorem mapper_builderSteps : (s.builderSteps options).foldl (fun n s => s.mapper?.getD n) 0 =
    options.rom.elim 0 Rom.mapper := by
  have hbytes : ∀ (es : List (UInt16 × UInt8)) (n : Nat),
      (es.map fun e => BuilderStep.write e.1 [e.2]).foldl (fun n s => s.mapper?.getD n) n = n := by
    intro es
    induction es with
    | nil => exact fun n => rfl
    | cons e rest ih => exact fun n => ih n
  rw [builderSteps, List.foldl_append, hbytes]
  cases options.rom <;> cases s.writtenVector? options <;> split_ifs <;> simp [BuilderStep.mapper?]

end Steps

section Build

variable {s : Scenario} {options : ScenarioOptions} {rom : Rom}

theorem holds_of_build (h : (s.fullCartridge options).build = .ok rom) :
    Builder.Holds (.of (s.builderSteps options)) { rom } := by
  rw [fullCartridge_eq_after] at h
  obtain ⟨hnone, rfl⟩ := Builder.build_eq_ok_iff.1 h
  have hholds := Builder.holds_after (s.banks_lt_of_mem_builderSteps options) hnone
  exact ⟨hholds.size, hholds.byte⟩

theorem size_of_build (h : (s.fullCartridge options).build = .ok rom) :
    rom.prg.size = prgSize options := by
  have hsize := (holds_of_build h).size
  rw [history_builderSteps] at hsize
  rw [hsize, prgSize]
  cases options.rom with
  | none => exact Bytes.size_zeros _
  | some rom => rfl

theorem mapper_of_build (h : (s.fullCartridge options).build = .ok rom) :
    rom.mapper = options.rom.elim 0 Rom.mapper := by
  rw [fullCartridge_eq_after] at h
  obtain ⟨hnone, rfl⟩ := Builder.build_eq_ok_iff.1 h
  rw [Builder.mapper_after hnone, mapper_builderSteps]

end Build

end Scenario

end CycleCheck
