import CycleCheck.Proofs.Cartridge.Reading
import CycleCheck.Proofs.Cycle.Completeness
import CycleCheck.Proofs.Cycle.FlatMemory

/-!
Reads of single addresses. An address and no write are put on the bus of a machine that has run, and
there is one more phase; the commands so far and those of the phase have a model for each trace of
the machine, and in all models the byte on the data bus is the one that the memory has then.
-/

namespace CycleCheck

open Processor

/-- The blocks of a read: the address and no write on the bus, and a phase. -/
def Machine.probe (sys : Machine) (address : UInt16) : List Block :=
  .pin Variable.addressBus.name 16 address.toUInt64 :: .pin Variable.writeEnable.name 1 0 ::
    sys.busPhase

/-- A read of the address gives a byte: all commands have a model, and in each of their models the
byte is on the data bus. -/
def Machine.Reads (sys : Machine) (address : UInt16) (v : UInt8) : Prop :=
  ∃ sys' d, sys.applyBlocks (sys.probe address) = (sys', .ok ()) ∧
    sys'.symbol Variable.dataIn.name = .ok d ∧
    (∃ I : Interpretation, I.Fits sys'.formula.signature ∧ I.Satisfies sys'.formula) ∧
    ∀ I : Interpretation, I.Fits sys'.formula.signature → I.Satisfies sys'.formula →
      I d.name = .bits 8 v.toBitVec

namespace Cycle

open Memory

theorem respond_signalling (rom : Cartridge.Rom) (m : Cells) (address : BitVec 16)
    (data : BitVec 8) : (Cpu.signalling address 0 data).respond rom m = peek rom m address :=
  congrArg State.dataIn (after_of_read (m := m) rfl)

/-! ## Pins of the signals -/

/-- The timeline after the pins of a read. -/
def pinned (t : Timeline) : Timeline :=
  (t.advance [Variable.addressBus.name]).advance [Variable.writeEnable.name]

section Pinned

variable {t : Timeline}

theorem latest_pinned_address :
    (pinned t).latest Variable.addressBus.name = t.fresh Variable.addressBus.name := by
  rw [pinned, Timeline.latest_advance_of_notMem (by decide),
    Timeline.latest_advance (List.mem_singleton_self _)]

theorem latest_pinned_write :
    (pinned t).latest Variable.writeEnable.name = t.fresh Variable.writeEnable.name := by
  rw [pinned, Timeline.latest_advance (List.mem_singleton_self _),
    Timeline.fresh_advance_of_notMem (by decide)]

theorem latest_pinned {w : Wire} (haddress : w ≠ .cpu .addressBus)
    (hwrite : w ≠ .cpu .writeEnable) : (pinned t).latest w.name = t.latest w.name := by
  have haddress' : w.name ∉ [Variable.addressBus.name] := Cartridge.name_notMem haddress
  have hwrite' : w.name ∉ [Variable.writeEnable.name] := Cartridge.name_notMem hwrite
  rw [pinned, Timeline.latest_advance_of_notMem hwrite', Timeline.latest_advance_of_notMem haddress']

theorem next_le_pinned (x : String) : t.next x ≤ (pinned t).next x := by
  rw [pinned, Timeline.next_advance, Timeline.next_advance]
  split_ifs <;> omega

/-- The pins give the two signals their values. -/
theorem exists_apply_pins (t : Timeline) (address : UInt16) : ∃ f g,
    t.apply (.pin Variable.addressBus.name 16 address.toUInt64) =
      .ok (f, t.advance [Variable.addressBus.name]) ∧
    (t.advance [Variable.addressBus.name]).apply (.pin Variable.writeEnable.name 1 0) =
      .ok (g, pinned t) ∧
    Formula.signature (f ++ g) = [((t.fresh Variable.addressBus.name).name, .bits 16),
      ((t.fresh Variable.writeEnable.name).name, .bits 1)] ∧
    ∀ I : Interpretation, I.Fits (Formula.signature (f ++ g)) → (I.Satisfies (f ++ g) ↔
      I (t.fresh Variable.addressBus.name).name = .bits 16 address.toBitVec ∧
      I (t.fresh Variable.writeEnable.name).name = .bits 1 0) := by
  obtain ⟨f, hf, hfsig, hfmodels⟩ := Cartridge.pin_assigns t (.cpu .addressBus) address
  obtain ⟨g, hg, hgsig, hgmodels⟩ :=
    Timeline.exists_apply_pin (t := t.advance [Variable.addressBus.name])
      (Wire.cpu .writeEnable).isName (by decide) (by decide) 0#1
  have hfresh : (t.advance [Variable.addressBus.name]).fresh (Wire.cpu .writeEnable).name =
      t.fresh Variable.writeEnable.name := Timeline.fresh_advance_of_notMem (by decide)
  rw [hfresh] at hgsig hgmodels
  refine ⟨f, g, hf, hg, ?_, fun I fits => ?_⟩
  · rw [Formula.signature_append, hfsig, hgsig]
    rfl
  · rw [Interpretation.satisfies_append, hgmodels,
      hfmodels I (Interpretation.fits_append.1 fits).1 trivial]
    rfl

end Pinned

/-! ## Symbols to come -/

/-- What was given out has another name than a version that is still to come. -/
theorem ne_of_scope {κ : String → Kind} {t : Timeline} {y : String} {k : Kind} (h : t.scope κ y k)
    {x : String} {v : Nat} (hv : t.next x ≤ v) : y ≠ Timeline.versionedName x v := by
  rintro rfl
  obtain ⟨x', v', hlt, hname, -⟩ := h
  obtain ⟨rfl, rfl⟩ := Timeline.versionedName_injective hname
  omega

theorem ne_fresh_of_scope {κ : String → Kind} {t : Timeline} {y : String} {k : Kind}
    (h : t.scope κ y k) (x : String) : y ≠ (t.fresh x).name := ne_of_scope h (Nat.le_refl _)

/-- An interpretation with a read of an address in it. -/
noncomputable def probed (rom : Cartridge.Rom) (t : Timeline) (address : BitVec 16)
    (data : BitVec 8) (m : Cells) (I : Interpretation) : Interpretation :=
  accessed rom (Cpu.signalling address 0 data) m (pinned t)
    (Function.update (Function.update I (t.fresh Variable.addressBus.name).name (.bits 16 address))
      (t.fresh Variable.writeEnable.name).name (.bits 1 0))

section Probed

variable {rom : Cartridge.Rom} {t : Timeline} {address : BitVec 16} {data : BitVec 8} {m : Cells}
  {I : Interpretation}

/-- The read changes no value that was given before. -/
theorem probed_of_scope {κ : String → Kind} {y : String} {k : Kind} (hy : t.scope κ y k) :
    probed rom t address data m I y = I y := by
  have hother : ∀ w n, n < Wire.made w → y ≠ (ahead (pinned t) w n).name := fun w n _ =>
    ne_of_scope hy (Nat.le_add_right_of_le (next_le_pinned w.name))
  rw [probed, accessed_other hother, Function.update_of_ne (ne_fresh_of_scope hy _),
    Function.update_of_ne (ne_fresh_of_scope hy _)]

/-- The signals have the values of their pins. -/
theorem probed_signals (rom : Cartridge.Rom) (t : Timeline) (address : BitVec 16)
    (data : BitVec 8) (m : Cells) (I : Interpretation) :
    probed rom t address data m I (t.fresh Variable.addressBus.name).name = .bits 16 address ∧
      probed rom t address data m I (t.fresh Variable.writeEnable.name).name = .bits 1 0 := by
  have hne : (t.fresh Variable.addressBus.name).name ≠ (t.fresh Variable.writeEnable.name).name :=
    fun h => absurd (Timeline.fresh_injective h) (by decide)
  have haddress : 0 < (pinned t).next Variable.addressBus.name :=
    Timeline.pos_advance (.inr (Timeline.pos_advance (.inl (List.mem_singleton_self _))))
  have hwrite : 0 < (pinned t).next Variable.writeEnable.name :=
    Timeline.pos_advance (.inl (List.mem_singleton_self _))
  unfold probed
  rw [← latest_pinned_address, ← latest_pinned_write] at hne ⊢
  constructor
  · exact (accessed_latest (w := .cpu .addressBus) haddress).trans
      ((Function.update_of_ne hne ..).trans (Function.update_self ..))
  · exact (accessed_latest (w := .cpu .writeEnable) hwrite).trans (Function.update_self ..)

/-- What a read starts from. -/
theorem busStart_pinned (haddress : I (t.fresh Variable.addressBus.name).name = .bits 16 address)
    (hwrite : I (t.fresh Variable.writeEnable.name).name = .bits 1 0)
    (hdata : I (t.latest Variable.dataOut.name).name = .bits 8 data)
    (hram : I (t.latest Ram.memory).name = .array 11 8 m)
    (hprg : I (t.latest Cartridge.Mapper.prg).name = content rom) :
    BusStart rom (pinned t) address 0 data m I where
  addressBus := by rw [latest_pinned_address, haddress]
  writeEnable := by rw [latest_pinned_write, hwrite]
  dataOut := (congrArg (fun s : Symbol => I s.name)
    (latest_pinned (w := .cpu .dataOut) (by decide) (by decide))).trans hdata
  ram := (congrArg (fun s : Symbol => I s.name)
    (latest_pinned (w := .ram) (by decide) (by decide))).trans hram
  prg := (congrArg (fun s : Symbol => I s.name)
    (latest_pinned (w := .prg) (by decide) (by decide))).trans hprg

end Probed

/-! ## Reads -/

/-- Commands of a read: they declare the two signals and the versions of a phase, and their models
have the values of the phase. -/
structure Probes (rom : Cartridge.Rom) (bits : Nat) (t : Timeline) (address : BitVec 16)
    (f : Formula) : Prop where
  declares : ∀ y k, (y, k) ∈ f.signature ↔
    (y = (t.fresh Variable.addressBus.name).name ∧ k = .bits 16 ∨
      y = (t.fresh Variable.writeEnable.name).name ∧ k = .bits 1) ∨
    ∃ w n, n < Wire.made w ∧ y = (ahead (pinned t) w n).name ∧ k = w.kind bits
  pins : ∀ I : Interpretation, I.Fits f.signature → I.Satisfies f →
    I (t.fresh Variable.addressBus.name).name = .bits 16 address ∧
      I (t.fresh Variable.writeEnable.name).name = .bits 1 0
  models : ∀ (data : BitVec 8) (m : Cells) (I : Interpretation), I.Fits f.signature →
    BusStart rom (pinned t) address 0 data m I →
      (I.Satisfies f ↔ ∀ w n, n < Wire.made w → I (ahead (pinned t) w n).name =
        accessValue rom (Cpu.signalling address 0 data) m w n)

theorem exists_probes {rom : Cartridge.Rom} {bits : Nat} {sys : Machine} (hsys : Built rom sys)
    (haccounted : Accounted bits sys) {t : Timeline} (ht : ∀ w ∈ sources, 0 < t.next w.name)
    (address : UInt16) : ∃ fs t', t.Yields (sys.probe address) fs t' ∧
      During (pinned t) t' true 16 true ∧ Probes rom bits t address.toBitVec fs.flatten := by
  obtain ⟨f, g, hf, hg, hsig, hpins⟩ := exists_apply_pins t address
  have hsources : ∀ w ∈ sources, 0 < (pinned t).next w.name := fun w hw =>
    Nat.lt_of_lt_of_le (ht w hw) (next_le_pinned w.name)
  obtain ⟨t', ht', fs, hyields, hmodels⟩ := access_compiles hsys hsources
  have hflatten : (f :: g :: fs).flatten = (f ++ g) ++ fs.flatten := by simp
  refine ⟨f :: g :: fs, t', .cons hf (.cons hg hyields), ht', ?_⟩
  rw [hflatten]
  refine ⟨fun y k => ?_, fun I fits hsat => ?_, fun data m I fits hstart => ?_⟩
  · rw [Formula.signature_append, List.mem_append, mem_signature_iff hsys haccounted hyields ht',
      hsig]
    simp
  · exact (hpins I (Interpretation.fits_append.1 fits).1).1 (Interpretation.satisfies_append.1 hsat).1
  · obtain ⟨fits, fits'⟩ := Interpretation.fits_append.1 fits
    have hgiven : I.Satisfies (f ++ g) := by
      rw [hpins I fits, ← latest_pinned_address, ← latest_pinned_write]
      exact ⟨hstart.addressBus, hstart.writeEnable⟩
    rw [Interpretation.satisfies_append, and_iff_right hgiven, Interpretation.satisfies_flatten,
      ← access_iff_values]
    exact hmodels (_, m) I (Interpretation.fits_flatten.1 fits') (accessStart_iff_busStart.2 hstart)

section Elapsed

variable {rom : Cartridge.Rom} {options : MachineOptions} {n : Nat} {sys : Machine}
  {trace : Nat → State} {I : Interpretation} {address : BitVec 16} {f : Formula}

/-- What the bus has in the end of a trace. -/
theorem Elapsed.busStart (h : Elapsed rom options n sys) (hshows : ShowsTrace rom n trace I)
    {J : Interpretation} (hsame : ∀ w, J (sys.timeline.latest (Wire.name w)).name =
      I (sys.timeline.latest w.name).name)
    (haddress : J (sys.timeline.fresh Variable.addressBus.name).name = .bits 16 address)
    (hwrite : J (sys.timeline.fresh Variable.writeEnable.name).name = .bits 1 0) :
    BusStart rom (pinned sys.timeline) address 0 (trace n).cpu.dataOut (trace n).ram J := by
  have hlast := hshows.shown n (Nat.le_refl n)
  refine busStart_pinned haddress hwrite ?_ ?_ ?_
  · exact (hsame (.cpu .dataOut)).trans
      ((h.timeline.latest I (.cpu .dataOut)).trans (hlast.values .dataOut))
  · exact (hsame .ram).trans ((h.timeline.latest I .ram).trans hlast.ram)
  · exact (hsame .prg).trans ((h.timeline.latest I .prg).trans hshows.prg)

/-- In a model of the commands so far and of a read, the byte is the one in the memory that a trace
leaves. -/
theorem Elapsed.dataIn_of_probes (h : Elapsed rom options n sys)
    (hf : Probes rom sys.mapper.addressBits sys.timeline address f)
    (fits : I.Fits (sys.formula ++ f).signature) (hsat : I.Satisfies (sys.formula ++ f)) :
    ∃ trace, IsTrace rom options n trace ∧
      I (ahead (pinned sys.timeline) (.cpu .dataIn) 0).name =
        .bits 8 (peek rom (trace n).ram address) := by
  obtain ⟨fits, fits'⟩ := Interpretation.fits_append.1 fits
  obtain ⟨hsat, hsat'⟩ := Interpretation.satisfies_append.1 hsat
  obtain ⟨trace, htrace, hshows, -⟩ := (h.describes I fits).1 hsat
  obtain ⟨haddress, hwrite⟩ := hf.pins I fits' hsat'
  have hstart := h.busStart hshows (fun _ => rfl) haddress hwrite
  have hdata := (hf.models _ _ I fits' hstart).1 hsat' (.cpu .dataIn) 0 (by decide)
  rw [accessValue, respond_signalling] at hdata
  exact ⟨trace, htrace, hdata⟩

/-- Each trace is a model of the commands so far, and of a read after them. -/
theorem Elapsed.exists_model_of_probes (h : Elapsed rom options n sys)
    (hf : Probes rom sys.mapper.addressBits sys.timeline address f)
    (htrace : IsTrace rom options n trace) :
    ∃ I : Interpretation, I.Fits (sys.formula ++ f).signature ∧
      I.Satisfies (sys.formula ++ f) := by
  let t := sys.timeline
  let c := Cpu.signalling address 0 (trace n).cpu.dataOut
  let I := interpretation rom trace
  let J := probed rom t address (trace n).cpu.dataOut (trace n).ram I
  have hshows := showsTrace_interpretation rom trace n
  have hkept : ∀ y k, (y, k) ∈ sys.formula.signature → J y = I y :=
    fun y k hy => probed_of_scope ((h.accounted.scope_iff y k).2 hy)
  have hphase : ∀ w i, i < Wire.made w →
      J (ahead (pinned t) w i).name = accessValue rom c (trace n).ram w i :=
    fun w i hi => accessed_ahead hi
  have hsignals := probed_signals rom t address (trace n).cpu.dataOut (trace n).ram I
  have hfits : J.Fits f.signature := by
    intro y k hy
    obtain (⟨rfl, rfl⟩ | ⟨rfl, rfl⟩) | ⟨w, i, hi, rfl, rfl⟩ := (hf.declares y k).1 hy
    · exact congrArg Meaning.kind hsignals.1
    · exact congrArg Meaning.kind hsignals.2
    · rw [hphase w i hi]
      exact kind_accessValue _ hi
  have hlatest : ∀ w, J (t.latest (Wire.name w)).name = I (t.latest w.name).name := fun w =>
    probed_of_scope (Timeline.scope_latest (κ := kindOf sys.mapper.addressBits) (h.next_pos w))
  refine ⟨J, Interpretation.fits_append.2 ⟨fun y k hy => ?_, hfits⟩,
    Interpretation.satisfies_append.2 ⟨?_, ?_⟩⟩
  · rw [hkept y k hy]
    exact h.fits trace y k hy
  · -- the commands so far do not see the read
    rw [h.accounted.sorted_formula.satisfies_congr fun y k hy => hkept y k (hy.resolve_left id)]
    exact (h.describes I (h.fits trace)).2 ⟨trace, htrace, hshows, trivial⟩
  · exact (hf.models _ _ J hfits (h.busStart hshows hlatest hsignals.1 hsignals.2)).2 hphase

/-- What a read gives after a number of cycles is what the memory has in all traces. -/
theorem Elapsed.reads (h : Elapsed rom options n sys) {address : UInt16} {v : UInt8}
    (hexists : ∃ trace, IsTrace rom options n trace)
    (hpeek : ∀ trace, IsTrace rom options n trace →
      peek rom (trace n).ram address.toBitVec = v.toBitVec) : sys.Reads address v := by
  obtain ⟨fs, t', hyields, ht', hf⟩ :=
    exists_probes h.toBuilt h.accounted (fun w _ => h.next_pos w) address
  obtain ⟨size, happly⟩ := Machine.applyBlocks_eq hyields
  have happlied : sys.Applied (sys.probe address) fs
      { sys with timeline := t', fragments := fs.reverse ++ sys.fragments, size } :=
    ⟨hyields, rfl, rfl⟩
  have hnext : t'.next (Wire.cpu .dataIn).name = (pinned sys.timeline).next _ + 1 := ht'.next _
  have hcurrent : t'.current (Wire.cpu .dataIn).name =
      .ok (ahead (pinned sys.timeline) (.cpu .dataIn) 0) := by
    rw [Timeline.current_eq (Wire.cpu .dataIn).isName (by omega), ht'.latest_of_succ rfl]
  refine ⟨_, _, happly, congrArg (Except.mapError MachineError.timeline) hcurrent, ?_,
    fun I fits hsat => ?_⟩
  · obtain ⟨trace, htrace⟩ := hexists
    rw [happlied.formula_eq]
    exact h.exists_model_of_probes hf htrace
  · rw [happlied.formula_eq] at fits hsat
    obtain ⟨trace, htrace, hdata⟩ := h.dataIn_of_probes hf fits hsat
    rw [hdata, hpeek trace htrace]

end Elapsed

end Cycle

end CycleCheck
