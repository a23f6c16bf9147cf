import CycleCheck.Proofs.Scenario.Cartridge
import CycleCheck.Proofs.Scenario.Verdict

/-!
What validation is for. A scenario is compiled exactly if it makes sense and there is a mapper for
the given ROM. On the way no place is used that does not exist: a program in RAM starts inside it,
bytes are put into cells that there are, no address is taken modulo the size of nothing, and the
number of a cell fits an index of RAM. The goal is a boolean term over what the formula declares.
-/

namespace CycleCheck

/-- Puts a byte at an index; there is no result outside. -/
def Bytes.put? (data : ByteArray) (i : Nat) (v : UInt8) : Option ByteArray :=
  if i < data.size then some (put data i v) else none

namespace Cartridge

/-- Does a step; bytes are put at addresses modulo the size, and there is no result if that is zero. -/
def Builder.perform? (b : Builder) (s : BuilderStep) : Option Builder :=
  if b.rom.prg.size = 0 ∧ b.error.isNone ∧ s.bytes ≠ [] then none else some (b.perform s)

theorem Builder.foldlM_perform? {steps : List BuilderStep}
    (hbanks : ∀ n, BuilderStep.banks n ∈ steps → n < 2 ^ 49) :
    steps.foldlM perform? {} = some (after steps) := by
  induction steps using List.reverseRecOn with
  | nil => rfl
  | append_singleton steps s ih =>
    have hbefore : ∀ n, BuilderStep.banks n ∈ steps → n < 2 ^ 49 :=
      fun n hn => hbanks n (List.mem_append_left _ hn)
    have hsize : (after steps).rom.prg.size ≠ 0 := Nat.pos_iff_ne_zero.1 (sized_after hbefore).1
    rw [List.foldlM_append, ih hbefore, after_concat]
    change (perform? (after steps) s).bind some = _
    rw [perform?, if_neg fun h => hsize h.1, Option.bind_some]

/-- There is a mapper for one or two banks without bank switching. -/
theorem Mapper.exists_ofRom_eq_error_iff {rom : Rom} : (∃ e, Mapper.ofRom rom = .error e) ↔
    rom.mapper ≠ 0 ∨ rom.prg.size ≠ bankSize ∧ rom.prg.size ≠ 2 * bankSize := by
  rw [Mapper.ofRom]
  split_ifs <;> simp_all

end Cartridge

namespace Scenario

open Memory Cartridge CycleCheck.Cycle

/-! ## Compilation with places that must exist -/

/-- The image of RAM. A program in RAM starts inside it, and each byte has a cell. -/
def ramImage? (s : Scenario) : Option ByteArray := do
  let image := Bytes.zeros ramSize
  let image ←
    if areaOf s.origin = .ram then
      if s.origin.toNat ≤ ramSize then some (placeBytes s.origin.toNat s.program image) else none
    else some image
  (ByteMap.entriesOf s.ram).foldlM (fun m e => Bytes.put? m (mapAddress e.1).1.toNat e.2) image

/-- The builder with all that is written. -/
def fullCartridge? (s : Scenario) (options : ScenarioOptions) : Option Builder :=
  (s.builderSteps options).foldlM Builder.perform? {}

/-- The system and the goal, from a builder and an image of RAM. -/
def finish (s : Scenario) (options : ScenarioOptions) (log : Log) (b : Builder)
    (image : ByteArray) : Except ScenarioError (Machine × Term) := do
  let rom ← b.build.mapError (.build s.name)
  let sys ← (Machine.ofRom rom { s.machineOptions options with ram := some image } log).mapError
    (.system s.name)
  let sys ← (runMachine sys s.cycles.toNat).mapError (.system s.name)
  let claims ← (s.claims sys).mapError (.system s.name)
  pure (sys, .all claims)

/-- RAM has each cell that something is expected of, so that its number fits an index. -/
def ExpectsCells (s : Scenario) : Prop :=
  ∀ e ∈ ByteMap.entriesOf s.expect.ram, (mapAddress e.1).1.toNat < ramSize

instance (s : Scenario) : Decidable s.ExpectsCells :=
  inferInstanceAs (Decidable (∀ e ∈ ByteMap.entriesOf s.expect.ram, (mapAddress e.1).1.toNat < ramSize))

/-- Compilation that stops without a result at a place that does not exist. -/
def compile? (s : Scenario) (options : ScenarioOptions) (log : Log) :
    Option (Except ScenarioError (Machine × Term)) :=
  match s.validate with
  | .error e => some (.error e)
  | .ok () => do
      let image ← s.ramImage?
      let b ← s.fullCartridge? options
      guard s.ExpectsCells
      pure (s.finish options log b image)

section Places

variable {s : Scenario} {options : ScenarioOptions} {log : Log}

theorem toNat_mapAddress_lt {a : UInt16} (h : areaOf a = .ram) :
    (mapAddress a).1.toNat < ramSize := by
  rw [toNat_mapAddress h]
  exact BitVec.isLt _

theorem foldlM_put? {es : List (UInt16 × UInt8)} {image : ByteArray}
    (hram : ∀ e ∈ es, areaOf e.1 = .ram) (hsize : image.size = ramSize) :
    es.foldlM (fun m e => Bytes.put? m (mapAddress e.1).1.toNat e.2) image =
      some (es.foldl (fun m e => Bytes.put m (mapAddress e.1).1.toNat e.2) image) := by
  induction es generalizing image with
  | nil => rfl
  | cons e rest ih =>
    obtain ⟨he, hrest⟩ := List.forall_mem_cons.1 hram
    have hcell : (mapAddress e.1).1.toNat < image.size := hsize ▸ toNat_mapAddress_lt he
    rw [List.foldlM_cons, Bytes.put?, if_pos hcell]
    exact ih hrest ((Bytes.size_put ..).trans hsize)

/-- A valid scenario has a place in RAM for each of its bytes. -/
theorem ramImage?_eq (hs : s.Valid) : s.ramImage? = some s.ramImage := by
  rw [ramImage?, ramImage]
  by_cases harea : areaOf s.origin = .ram
  · have hstart : s.origin.toNat ≤ ramSize := by
      obtain ⟨-, hlast⟩ | ⟨hother, -⟩ := hs.program
      · omega
      · simp [harea] at hother
    rw [if_pos harea, if_pos hstart, if_pos harea]
    exact foldlM_put? hs.ram ((size_placeBytes ..).trans (Bytes.size_zeros _))
  · rw [if_neg harea, if_neg harea]
    exact foldlM_put? hs.ram (Bytes.size_zeros _)

theorem expectsCells (hs : s.Valid) : s.ExpectsCells :=
  fun e he => toNat_mapAddress_lt (hs.expected e he)

theorem fullCartridge?_eq (s : Scenario) (options : ScenarioOptions) :
    s.fullCartridge? options = some (s.fullCartridge options) := by
  rw [fullCartridge?, Builder.foldlM_perform? (s.banks_lt_of_mem_builderSteps options),
    fullCartridge_eq_after]

/-- Compilation never gets to a place that does not exist. -/
theorem compile?_eq (s : Scenario) (options : ScenarioOptions) (log : Log) :
    s.compile? options log = some (s.compile options log) := by
  have hcompile : s.compile options log = s.validate >>= fun _ =>
    s.finish options log (s.fullCartridge options) s.ramImage := rfl
  rw [compile?, hcompile]
  cases hvalid : s.validate with
  | error e => rfl
  | ok u =>
    have hs := valid_of_validate hvalid
    simp only [ramImage?_eq hs, fullCartridge?_eq, guard, if_pos (expectsCells hs)]
    rfl

end Places

/-! ## What is compiled -/

section Compiled

variable {s : Scenario} {options : ScenarioOptions} {log : Log}

/-- A compiled scenario makes sense, and its ROM has a mapper. -/
theorem exists_of_compile {p : Machine × Term} (h : s.compile options log = .ok p) :
    s.validate = .ok () ∧ ∃ rom m, (s.fullCartridge options).build = .ok rom ∧
      Mapper.ofRom rom = .ok m := by
  unfold compile at h
  obtain ⟨_, hvalid, h⟩ := Propagation.exists_ok_of_bind h
  obtain ⟨rom, hbuild, h⟩ := Propagation.exists_ok_of_bind h
  obtain ⟨sys, hsys, -⟩ := Propagation.exists_ok_of_bind h
  rw [Propagation.mapError_eq_ok, Machine.ofRom] at hsys
  obtain ⟨m, hm, -⟩ := Propagation.exists_ok_of_bind hsys
  exact ⟨hvalid, rom, m, Propagation.mapError_eq_ok.1 hbuild, Propagation.mapError_eq_ok.1 hm⟩

/-- The ROM that is built has a mapper only if the given ROM has one. -/
theorem ofRom_ne_error {rom given : Rom} {m : Mapper} (hgiven : options.rom = some given)
    (hbuild : (s.fullCartridge options).build = .ok rom) (hm : Mapper.ofRom rom = .ok m)
    (e : MapperError) : Mapper.ofRom given ≠ .error e := by
  have hmapper : rom.mapper = given.mapper := by
    rw [mapper_of_build hbuild, hgiven, Option.elim_some]
  have hsize : rom.prg.size = given.prg.size := by
    rw [size_of_build hbuild, prgSize, hgiven, Option.elim_some]
  intro he
  have hrejected := Mapper.exists_ofRom_eq_error_iff.1 ⟨e, he⟩
  rw [← hmapper, ← hsize] at hrejected
  obtain ⟨e', he'⟩ := Mapper.exists_ofRom_eq_error_iff.2 hrejected
  cases hm.symm.trans he'

/-- A given ROM that is not rejected. -/
theorem forall_of_not_rejected
    (h : ¬ ∃ rom ∈ options.rom, ∃ e, Mapper.ofRom rom = .error e) :
    ∀ rom, options.rom = some rom → rom.mapper = 0 ∧
      (rom.prg.size = bankSize ∨ rom.prg.size = 2 * bankSize) := by
  intro rom hrom
  have haccepted : ¬ ∃ e, Mapper.ofRom rom = .error e := fun he => h ⟨rom, hrom, he⟩
  rw [Mapper.exists_ofRom_eq_error_iff] at haccepted
  omega

theorem exists_compile_eq_error_iff : (∃ e, s.compile options log = .error e) ↔
    (∃ e, s.validate = .error e) ∨ ∃ rom ∈ options.rom, ∃ e, Mapper.ofRom rom = .error e := by
  constructor
  · rintro ⟨e, he⟩
    by_contra hnone
    rw [not_or] at hnone
    have hvalid : s.validate = .ok () := by
      cases hv : s.validate with
      | ok u => rfl
      | error e => exact absurd ⟨e, hv⟩ hnone.1
    obtain ⟨rom, sys, sys₀, sysₙ, ts, hstages, -⟩ :=
      exists_stages hvalid (forall_of_not_rejected hnone.2) log
    cases he.symm.trans (hstages.compile_eq hvalid)
  · intro h
    cases hcompile : s.compile options log with
    | error e => exact ⟨e, rfl⟩
    | ok p =>
      obtain ⟨hvalid, rom, m, hbuild, hm⟩ := exists_of_compile hcompile
      rcases h with ⟨e, he⟩ | ⟨given, hgiven, e, he⟩
      · cases hvalid.symm.trans he
      · exact absurd he (ofRom_ne_error hgiven hbuild hm e)

/-- The goal of a compiled scenario is a boolean term over what its formula declares. -/
theorem hasKind_goal {sys : Machine} {goal : Term}
    (h : s.compile options log = .ok (sys, goal)) : goal.HasKind sys.formula.signature .truth := by
  have hnone : ¬ ∃ e, s.compile options log = .error e := by
    rintro ⟨e, he⟩
    cases h.symm.trans he
  rw [exists_compile_eq_error_iff, not_or] at hnone
  obtain ⟨hvalid, -⟩ := exists_of_compile h
  obtain ⟨rom, _, _, sysₙ, ts, hstages, -, -, hclaims⟩ :=
    exists_stages hvalid (forall_of_not_rejected hnone.2) log
  cases h.symm.trans (hstages.compile_eq hvalid)
  exact ((Term.Evaluable.all hclaims.evaluable).proper fun _ _ hx => hx).kind

end Compiled

/-- Validation is exact. Whatever the scenario and the given ROM, compilation has a result without
getting to a place that does not exist; it fails if and only if the scenario makes no sense or there
is no mapper for the given ROM, and otherwise the goal is a boolean term over what is declared. -/
theorem compile_exact (s : Scenario) (options : ScenarioOptions) (log : Log) :
    s.compile? options log = some (s.compile options log) ∧
    ((∃ e, s.compile options log = .error e) ↔
      (∃ e, s.validate = .error e) ∨ ∃ rom ∈ options.rom, ∃ e, Mapper.ofRom rom = .error e) ∧
    (∀ rom, (∃ e, Mapper.ofRom rom = .error e) ↔
      rom.mapper ≠ 0 ∨ rom.prg.size ≠ bankSize ∧ rom.prg.size ≠ 2 * bankSize) ∧
    ∀ sys goal, s.compile options log = .ok (sys, goal) →
      goal.HasKind sys.formula.signature .truth :=
  ⟨compile?_eq s options log, exists_compile_eq_error_iff,
    fun _ => Mapper.exists_ofRom_eq_error_iff, fun _ _ => hasKind_goal⟩

end Scenario

end CycleCheck
