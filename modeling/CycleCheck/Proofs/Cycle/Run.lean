import CycleCheck.Proofs.Cycle.Execution
import CycleCheck.Proofs.Cycle.WellFormed
import Mathlib.Logic.Function.Iterate

/-!
The run of the reference machine from known registers and a full RAM. It goes on as long as it
decodes implemented opcodes; a state without a transition is the fetch of an opcode that is not.
The values of a trace are an interpretation of the symbols of any formula of a machine.
-/

namespace CycleCheck.Cycle

open Processor Memory

/-! ## The run -/

/-- The outputs of power on with known registers. -/
def Cpu.start (r : Registers) : Cpu where
  a := r.a.toBitVec
  x := r.x.toBitVec
  y := r.y.toBitVec
  sp := r.sp.toBitVec
  p := r.p.toBitVec
  pc := r.pc.toBitVec
  state := codeOf .resetting
  resetSequence := 0
  addressBus := 0
  writeEnable := 0
  dataOut := 0
  tempAddress := 0
  tempPointer := 0

/-- RAM with the bytes of an image. -/
def cellsOf (image : ByteArray) : Cells := fun i => (Bytes.get image i.toNat).toBitVec

/-- The state at power on. -/
def State.start (rom : Cartridge.Rom) (r : Registers) (image : ByteArray) : State :=
  after rom (cellsOf image) (Cpu.start r)

/-- The states from power on. -/
def run (rom : Cartridge.Rom) (r : Registers) (image : ByteArray) (k : Nat) : State :=
  (State.next rom)^[k] (State.start rom r image)

/-- A state does not decode an opcode that is not implemented. -/
def State.Decodes (s : State) : Prop :=
  s.cpu.state = codeOf .instructionFetch → (Instruction.lookup? ⟨s.dataIn⟩).isSome

instance (s : State) : Decidable s.Decodes := by
  unfold State.Decodes
  infer_instance

/-- The first `n` cycles of a run decode implemented opcodes only. -/
def Implemented (rom : Cartridge.Rom) (r : Registers) (image : ByteArray) (n : Nat) : Prop :=
  ∀ k < n, (run rom r image k).Decodes

instance (rom : Cartridge.Rom) (r : Registers) (image : ByteArray) (n : Nat) :
    Decidable (Implemented rom r image n) := by
  unfold Implemented
  infer_instance

section Run

variable {rom : Cartridge.Rom} {r : Registers} {image : ByteArray}

theorem run_zero : run rom r image 0 = State.start rom r image := rfl

theorem run_succ (k : Nat) : run rom r image (k + 1) = (run rom r image k).next rom :=
  Function.iterate_succ_apply' ..

theorem poweredOn_start (r : Registers) : (Cpu.start r).PoweredOn (some r) where
  state := rfl
  resetSequence := rfl
  addressBus := rfl
  writeEnable := rfl
  dataOut := rfl
  registers := by
    rintro _ ⟨⟩
    exact ⟨rfl, rfl, rfl, rfl, rfl, rfl, rfl, rfl⟩

theorem initial_start {options : MachineOptions} (hregisters : options.registers = some r)
    (hram : options.ram = some image) (hsize : image.size ≤ ramSize) :
    Initial rom options (State.start rom r image) := by
  have hstore : (Cpu.start r).store (cellsOf image) = cellsOf image :=
    store_of_poweredOn (poweredOn_start r) _
  refine ⟨?_, ?_, ?_⟩
  · rw [hregisters]
    exact poweredOn_start r
  · intro data hdata i hi
    cases hram.symm.trans hdata
    have hlt : i < 2 ^ 11 := Nat.lt_of_lt_of_le hi hsize
    change (Cpu.start r).store (cellsOf image) _ = _
    rw [hstore, cellsOf, BitVec.toNat_ofNat, Nat.mod_eq_of_lt hlt]
  · change (Cpu.start r).respond rom (cellsOf image) =
      (Cpu.start r).respond rom ((Cpu.start r).store (cellsOf image))
    rw [hstore]

/-- The run is a trace. -/
theorem isTrace_run {options : MachineOptions} (hregisters : options.registers = some r)
    (hram : options.ram = some image) (hsize : image.size ≤ ramSize) (n : Nat) :
    IsTrace rom options n (run rom r image) := by
  refine ⟨initial_start hregisters hram hsize, fun k _ => ?_⟩
  rw [run_succ]
  exact State.step_next rom _

/-- With known registers and a full RAM there is one initial state. -/
theorem eq_start_of_initial {options : MachineOptions} {s : State}
    (hregisters : options.registers = some r) (hram : options.ram = some image)
    (hsize : image.size = ramSize) (h : Initial rom options s) : s = State.start rom r image := by
  obtain ⟨c, d, m⟩ := s
  have hm : m = cellsOf image := by
    funext i
    have hi := h.ram image hram i.toNat (hsize ▸ i.isLt)
    rwa [BitVec.ofNat_toNat, BitVec.setWidth_eq] at hi
  have hc : c = Cpu.start r := by
    have hon := h.cpu
    obtain ⟨ha, hx, hy, hsp, hp, hpc, htemp, hpointer⟩ := hon.registers r hregisters
    obtain ⟨a, x, y, sp, p, pc, state, resetSequence, addressBus, writeEnable, dataOut,
      tempAddress, tempPointer⟩ := c
    obtain ⟨hstate, hreset, haddress, hwrite, hdata, -⟩ := hon
    simp only at ha hx hy hsp hp hpc htemp hpointer hstate hreset haddress hwrite hdata
    simp only [Cpu.start, ha, hx, hy, hsp, hp, hpc, htemp, hpointer, hstate, hreset, haddress,
      hwrite, hdata]
  subst hm hc
  have hstore : (Cpu.start r).store (cellsOf image) = cellsOf image :=
    store_of_poweredOn (poweredOn_start r) _
  have hd : d = _ := h.dataIn
  rw [State.start, after, hstore, hd]

/-- A trace follows the run as long as there are transitions. -/
theorem eq_run_of_isTrace {options : MachineOptions} {n : Nat} {trace : Nat → State}
    (hregisters : options.registers = some r) (hram : options.ram = some image)
    (hsize : image.size = ramSize) (htrace : IsTrace rom options n trace) {k : Nat} (hk : k ≤ n)
    (hnext : ∀ j < k, ((run rom r image j).cpu.next? (run rom r image j).dataIn).isSome) :
    trace k = run rom r image k := by
  induction k with
  | zero => exact eq_start_of_initial hregisters hram hsize htrace.start
  | succ k ih =>
    have hprev := ih (Nat.le_of_succ_le hk) fun j hj => hnext j (Nat.lt_succ_of_lt hj)
    have hstep := htrace.step k hk
    obtain ⟨c, hc⟩ := Option.isSome_iff_exists.1 (hnext k (Nat.lt_succ_self k))
    rw [hprev] at hstep
    rw [hstep.eq_after hc, run_succ, State.next_eq hc]

end Run

/-- The run depends on the bytes that are read only. -/
theorem run_congr {rom rom' : Cartridge.Rom} {image image' : ByteArray} (hrom : ∀ i,
    Bytes.get rom.prg (i % rom.prg.size) = Bytes.get rom'.prg (i % rom'.prg.size))
    (hram : cellsOf image = cellsOf image') (r : Registers) :
    run rom r image = run rom' r image' := by
  have hafter : after rom = after rom' := by
    funext m c
    simp only [after, Cpu.respond, hrom]
  funext k
  induction k with
  | zero => rw [run_zero, run_zero, State.start, State.start, hafter, hram]
  | succ k ih => rw [run_succ, run_succ, ih, State.next, State.next, hafter]

theorem get_zeros (n i : Nat) : Bytes.get (Bytes.zeros n) i = 0 := by
  unfold Bytes.get
  split
  · exact Array.getElem_replicate ..
  · rfl

/-- The size of a ROM of zeros does not matter. -/
theorem run_zeros (name : String) (mapper n : Nat) (r : Registers) (image : ByteArray) :
    run ⟨name, mapper, Bytes.zeros n⟩ r image = run ⟨"", 0, Bytes.zeros 1⟩ r image :=
  run_congr (fun i => by rw [get_zeros, get_zeros]) rfl r

/-! ## The values of a trace -/

/-- The contents of RAM: two versions in each phase, after those of power on. -/
def ramVersion (trace : Nat → State) (v : Nat) : Cells :=
  if v = 0 then (trace 0).ram
  else if v % 2 = 1 then (trace (v / 2)).cpu.storePage 0 (trace (v / 2 - 1)).ram
  else (trace (v / 2 - 1)).ram

/-- The value of a version of a wire. -/
def wireValue (rom : Cartridge.Rom) (trace : Nat → State) (w : Wire) (k : Nat) : Meaning :=
  match w with
  | .cpu v => signal (trace k).cpu (trace k).dataIn v
  | .select page => .bits 1 ((trace k).cpu.selects page)
  | .address _ => .bits 16 (trace k).cpu.addressBus
  | .write _ => .bits 1 (trace k).cpu.writeEnable
  | .data _ => .bits 8 (trace k).cpu.dataOut
  | .answer page => .bits 8 ((trace k).cpu.answer rom page
      ((trace k).cpu.before page (trace (k - 1)).ram))
  | .ram => .array 11 8 (ramVersion trace k)
  | .prg => content rom

open Classical in
/-- The interpretation by the values of a trace. -/
noncomputable def interpretation (rom : Cartridge.Rom) (trace : Nat → State) : Interpretation :=
  fun y =>
    if h : ∃ (w : Wire) (v : Nat), y = Timeline.versionedName w.name v then
      wireValue rom trace h.choose h.choose_spec.choose
    else .truth false

section Interpretation

variable (rom : Cartridge.Rom) (trace : Nat → State)

theorem version_interpretation (w : Wire) (v : Nat) :
    version (interpretation rom trace) v w.name = wireValue rom trace w v := by
  have hex : ∃ (w' : Wire) (v' : Nat), Timeline.versionedName w.name v =
      Timeline.versionedName w'.name v' := ⟨w, v, rfl⟩
  rw [version, interpretation, dif_pos hex]
  obtain ⟨hname, hversion⟩ := Timeline.versionedName_injective hex.choose_spec.choose_spec
  rw [← hversion, Wire.name_injective hname.symm]

theorem kind_wireValue {m : Cartridge.Mapper} (hm : MapsTo m rom) (w : Wire) (v : Nat) :
    (wireValue rom trace w v).kind = w.kind m.addressBits := by
  cases w with
  | cpu v => cases v <;> rfl
  | prg => exact congrArg (Kind.array · 8) hm.addressBits.symm
  | _ => rfl

/-- The values of a trace have the sorts of all versions given out. -/
theorem fits_interpretation {m : Cartridge.Mapper} (hm : MapsTo m rom) {t : Timeline} {y : String}
    {k : Kind} (h : t.scope (kindOf m.addressBits) y k) : (interpretation rom trace y).kind = k := by
  obtain ⟨x, v, -, rfl, rfl⟩ := h
  by_cases hx : ∃ w : Wire, x = w.name
  · obtain ⟨w, rfl⟩ := hx
    rw [kindOf_name, ← kind_wireValue rom trace hm w v, ← version_interpretation]
    rfl
  · have hnone : ¬ ∃ (w : Wire) (v' : Nat), Timeline.versionedName x v =
        Timeline.versionedName w.name v' := by
      rintro ⟨w, v', heq⟩
      exact hx ⟨w, (Timeline.versionedName_injective heq).1⟩
    have hfind : (Wire.all.find? fun w => w.name == x) = none := by
      rw [List.find?_eq_none]
      intro w _ hw
      exact hx ⟨w, (beq_iff_eq.1 hw).symm⟩
    rw [interpretation, dif_neg hnone, kindOf, hfind]
    rfl

theorem showsTrace_interpretation (n : Nat) :
    ShowsTrace rom n trace (interpretation rom trace) := by
  have hversion := version_interpretation rom trace
  refine ⟨hversion .prg 0, hversion .ram 0, fun k _ => ⟨fun v => hversion (.cpu v) k, ?_, ?_,
    fun page => ⟨hversion (.select page) k, hversion (.address page) k, hversion (.write page) k,
      hversion (.data page) k⟩, fun page => hversion (.answer page) k⟩⟩
  · refine (hversion .ram (2 * k + 2)).trans ?_
    rw [wireValue, ramVersion, if_neg (by omega), if_neg (by omega),
      show (2 * k + 2) / 2 - 1 = k by omega]
  · refine (hversion .ram (2 * k + 1)).trans ?_
    rw [wireValue, ramVersion, if_neg (by omega), if_pos (by omega),
      show (2 * k + 1) / 2 = k by omega]

end Interpretation

/-! ## States without a transition -/

/-- The micro-state of the processor is one of those that have codes. -/
def Cpu.Valid (c : Cpu) : Prop := ∃ m ∈ microStates, c.state = codeOf m

/-- Terms that give the outputs of any processor. -/
theorem exists_gives (c : Cpu) (d : BitVec 8) : ∃ (I : Interpretation) (inp : Inputs),
    Gives I inp c d := by
  let trace : Nat → State := fun _ => ⟨c, d, fun _ => 0⟩
  exact ⟨interpretation ⟨"", 0, .empty⟩ trace, fun v => .symbol ⟨Timeline.versionedName v.name 0⟩,
    fun v => version_interpretation _ trace (.cpu v) 0⟩

theorem Cpu.Valid.next?_isSome {c : Cpu} (h : c.Valid) {d : BitVec 8}
    (hdecodes : c.state = codeOf .instructionFetch → (Instruction.lookup? ⟨d⟩).isSome) :
    (c.next? d).isSome := by
  obtain ⟨m, hm, hc⟩ := h
  rw [microStates, Processor.microStates, List.mem_cons, List.mem_cons, List.mem_flatMap] at hm
  rcases hm with rfl | rfl | ⟨i, hi, hm⟩
  · rw [Cpu.next?_resetting hc]
    rfl
  · rw [Cpu.next?_instructionFetch hc, Option.isSome_map]
    exact hdecodes hc
  · obtain ⟨I, inp, hgives⟩ := exists_gives c d
    obtain ⟨rule, hrule, happ⟩ := exists_instructionRule I inp hm hc
    obtain ⟨t, -, hperforms⟩ := (performs_of_mem_instructionRules hi hrule).effect inp
    obtain ⟨c', -, hnext⟩ := hperforms I c d hgives happ
    rw [hnext]
    rfl

theorem state_of_rule : ∀ rule ∈ Processor.standard.rules,
    rule.next = none → rule.state = .resetting := by
  decide +kernel

theorem Cpu.valid_of_next? {c c' : Cpu} {d : BitVec 8} (h : c.next? d = some c') : c'.Valid := by
  obtain ⟨I, inp, hgives⟩ := exists_gives c d
  obtain ⟨rule, hrule, happ⟩ := exists_applies hgives h
  have hperforms := performs_of_mem hrule
  obtain ⟨t, -, heffect⟩ := hperforms.effect inp
  obtain ⟨c'', -, hnext⟩ := heffect I c d hgives happ
  cases h.symm.trans hnext
  cases hgo : rule.next with
  | some m => exact ⟨m, hperforms.next m hgo, rfl⟩
  | none =>
    have hc : c.state = codeOf .resetting := state_of_rule rule hrule hgo ▸ happ.state
    have hreset : c''.arrive rule.next = c.reset d := by
      rw [Cpu.next?_resetting hc] at hnext
      exact (Option.some.inj hnext).symm
    have hcases : (c.reset d).state = c.state ∨
        (c.reset d).state = codeOf .instructionFetch := by
      unfold Cpu.reset
      split
      all_goals first | exact .inl rfl | exact .inr rfl
    rw [← hgo, hreset]
    rcases hcases with hkept | hfetch
    · exact ⟨_, resetting_mem, hkept.trans hc⟩
    · exact ⟨_, instructionFetch_mem, hfetch⟩

/-- As long as the run decodes implemented opcodes, its states have transitions. -/
theorem run_valid {rom : Cartridge.Rom} {r : Registers} {image : ByteArray} {k : Nat}
    (h : Implemented rom r image k) : (run rom r image k).cpu.Valid := by
  induction k with
  | zero => exact ⟨_, resetting_mem, rfl⟩
  | succ k ih =>
    have hvalid := ih fun j hj => h j (Nat.lt_succ_of_lt hj)
    obtain ⟨c, hc⟩ := Option.isSome_iff_exists.1 (hvalid.next?_isSome (h k (Nat.lt_succ_self k)))
    rw [run_succ, State.next_eq hc]
    exact Cpu.valid_of_next? hc

theorem run_next?_isSome {rom : Cartridge.Rom} {r : Registers} {image : ByteArray} {n : Nat}
    (h : Implemented rom r image n) :
    ∀ k < n, ((run rom r image k).cpu.next? (run rom r image k).dataIn).isSome := fun k hk =>
  (run_valid fun j hj => h j (Nat.lt_trans hj hk)).next?_isSome (h k hk)

/-- A run that decodes an opcode that is not implemented gets to a state without a transition. -/
theorem exists_stop {rom : Cartridge.Rom} {r : Registers} {image : ByteArray} {n : Nat}
    (h : ¬ Implemented rom r image n) : ∃ k < n, Implemented rom r image k ∧
      (run rom r image k).cpu.next? (run rom r image k).dataIn = none := by
  obtain ⟨k, hk, hfails⟩ : ∃ k < n, ¬ (run rom r image k).Decodes := by
    simpa [Implemented] using h
  have hex : ∃ k, ¬ (run rom r image k).Decodes := ⟨k, hfails⟩
  refine ⟨Nat.find hex, Nat.lt_of_le_of_lt (Nat.find_min' hex hfails) hk, fun j hj => ?_, ?_⟩
  · exact not_not.1 (Nat.find_min hex hj)
  · have hstop := Nat.find_spec hex
    rw [State.Decodes, Classical.not_imp, Bool.not_eq_true, Option.isSome_eq_false_iff,
      Option.isNone_iff_eq_none] at hstop
    rw [Cpu.next?_instructionFetch hstop.1, hstop.2]
    rfl

end CycleCheck.Cycle
