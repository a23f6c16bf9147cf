import CycleCheck.Proofs.Cycle.Propagated
import CycleCheck.Proofs.Cycle.Run
import CycleCheck.Proofs.Propagation.Verdict

/-!
Propagation is complete on pinned machines. With known registers and a full RAM the formula of any
number of cycles is found to be satisfiable, and its model is the run of the reference machine, if
the run decodes implemented opcodes only. Otherwise the outputs after the first opcode that is not
implemented are open. They reach the signals of the pages, so a model that leaves both open would
have completions in which they differ; propagation is left undetermined.
-/

namespace CycleCheck

namespace Propagation

variable {sig : Signature} {m : State} {I J : Interpretation}

/-! ## Symbols that a model leaves open -/

/-- Two interpretations of a model that give a symbol different numbers: the symbol is open. -/
theorem State.value?_eq_none {x : String} (hI : m.Agrees I) (hJ : m.Agrees J)
    (hne : (I x).number? ≠ (J x).number?) : m.value? x = none := by
  cases hv : m.value? x with
  | none => rfl
  | some v => exact absurd ((hI.values x v hv).trans (hJ.values x v hv).symm) hne

/-- An open symbol of a word may have any value, all others being kept. -/
theorem State.Agrees.update (wk : m.WellKinded sig) (hI : m.Agrees I) {x : String} {w : Nat}
    (hx : (x, .bits w) ∈ sig) (hopen : m.value? x = none) (v : Meaning) :
    m.Agrees (Function.update I x v) := by
  have harray : ∀ {y a d}, (y, Kind.array a d) ∈ sig → Function.update I x v y = I y := by
    intro y a d hy
    refine Function.update_of_ne (fun heq => ?_) _ _
    cases wk.functional x _ _ hx (heq ▸ hy)
  refine ⟨fun y u hy => ?_, fun y memory hy => ?_, fun r i u hr => ?_⟩
  · have hne : y ≠ x := by
      rintro rfl
      cases hopen.symm.trans hy
    rw [Function.update_of_ne hne]
    exact hI.values y u hy
  · obtain ⟨a, d, hmem, hfits, -⟩ := wk.arrays y memory hy
    rw [Memory.meaning, harray hmem, harray hfits.root]
    exact hI.arrays y memory hy
  · obtain ⟨a, d, hmem, -⟩ := wk.cells r i u hr
    rw [harray hmem]
    exact hI.cells r i u hr

theorem fits_update (functional : ∀ x k k', (x, k) ∈ sig → (x, k') ∈ sig → k = k')
    (fits : I.Fits sig) {x : String} {k : Kind} (hx : (x, k) ∈ sig) {v : Meaning}
    (hv : v.kind = k) : Interpretation.Fits (Function.update I x v) sig := by
  intro y j hy
  by_cases hxy : y = x
  · subst hxy
    rw [Function.update_self, hv, functional y k j hx hy]
  · rw [Function.update_of_ne hxy]
    exact fits y j hy

/-! ## Models that leave nothing open -/

/-- A model knows all words and all cells, and they are those of an interpretation. -/
structure KnowsAll (m : State) (sig : Signature) (I : Interpretation) : Prop where
  words : ∀ x w, (x, .bits w) ∈ sig → ∃ v, m.value? x = some v ∧ (I x).number? = some v.toNat
  cells : ∀ x a d, (x, .array a d) ∈ sig → ∀ i : UInt64, i.toNat < 2 ^ a →
    ∃ v, m.cell? x i = some v ∧ (I x).cell? i.toNat = some v.toNat

theorem knowsAll_of_knowing {p : Progress} (fits : I.Fits sig)
    (hp : p.Knowing sig I fun x k => (x, k) ∈ sig)
    (narrow : ∀ x a d, (x, .array a d) ∈ sig → a ≤ 64) : KnowsAll p.state sig I := by
  refine ⟨fun x w hx => ?_, fun x a d hx i hi => ?_⟩
  · obtain ⟨v, hv⟩ := hp.exists_value (x := x) hx
    exact ⟨v, hv, hp.agrees.values x v hv⟩
  · obtain ⟨memory, hmemory, hfull⟩ := hp.exists_memory (x := x) hx
    obtain ⟨v, hv⟩ := Option.isSome_iff_exists.1 (hfull i hi)
    obtain ⟨a', d', hx', hfits, -⟩ := hp.state.arrays x memory hmemory
    cases hp.state.functional x _ _ hx hx'
    refine ⟨v, by rw [State.cell?, hmemory]; exact hv, ?_⟩
    rw [hp.agrees.arrays x memory hmemory]
    exact hp.agrees.cell?_of_lookup fits hfits ⟨narrow x a d hx, hi⟩ hv

end Propagation

namespace Cycle

open Processor Memory

/-! ## Detours -/

/-- Two states with the same registers and the same RAM. -/
structure Alike (s s' : State) : Prop where
  a : s'.cpu.a = s.cpu.a
  x : s'.cpu.x = s.cpu.x
  y : s'.cpu.y = s.cpu.y
  sp : s'.cpu.sp = s.cpu.sp
  p : s'.cpu.p = s.cpu.p
  pc : s'.cpu.pc = s.cpu.pc
  ram : s'.ram = s.ram

/-- The outputs in a micro-state that is none, with another address on the bus. -/
def Cpu.astray (c : Cpu) (address : BitVec 16) : Cpu :=
  { c with state := 127, addressBus := address }

theorem Cpu.next?_astray (c : Cpu) (address : BitVec 16) (d : BitVec 8) :
    (c.astray address).next? d = none := by
  have hnone : microState? 127 = none := by
    rw [microState?, List.getElem?_eq_none_iff, length_microStates]
    decide
  have hstate : microState? (c.astray address).state = none := hnone
  rw [Cpu.next?, hstate]

/-- The mirror of an address in the same page. -/
def mirror (address : BitVec 16) : BitVec 16 := address ^^^ 0x800

theorem mirror_ne (address : BitVec 16) : mirror address ≠ address := by
  intro h
  have hbit := congrArg (·.getLsbD 11) h
  simp [mirror] at hbit

theorem toNat_div_mirror (address : BitVec 16) :
    (mirror address).toNat / 2 ^ 13 = address.toNat / 2 ^ 13 := by
  rw [mirror, BitVec.toNat_xor, ← Nat.shiftRight_eq_div_pow, Nat.shiftRight_xor_distrib,
    ← Nat.shiftRight_eq_div_pow]
  simp

theorem setWidth_mirror (address : BitVec 16) :
    (mirror address).setWidth 11 = address.setWidth 11 := by
  rw [mirror, BitVec.setWidth_xor]
  simp

/-- RAM does not tell an address from its mirror. -/
theorem Cpu.store_astray (c : Cpu) {address : BitVec 16}
    (h : address = c.addressBus ∨ address = mirror c.addressBus) (m : Cells) :
    (c.astray address).store m = c.store m := by
  have hlow : address.toNat < 0x2000 ↔ c.addressBus.toNat < 0x2000 := by
    have hdiv : address.toNat / 2 ^ 13 = c.addressBus.toNat / 2 ^ 13 := by
      rcases h with rfl | rfl
      · rfl
      · exact toNat_div_mirror _
    omega
  have hcell : address.setWidth 11 = c.addressBus.setWidth 11 := by
    rcases h with rfl | rfl
    · rfl
    · exact setWidth_mirror _
  simp only [Cpu.store, Cpu.astray, hlow, hcell]

/-- A trace that goes astray in one state. -/
def detour (rom : Cartridge.Rom) (trace : Nat → State) (k : Nat) (address : BitVec 16) :
    Nat → State :=
  Function.update trace (k + 1) (after rom (trace k).ram ((trace (k + 1)).cpu.astray address))

variable {rom : Cartridge.Rom} {options : MachineOptions} {n k : Nat} {trace : Nat → State}
  {address : BitVec 16}

theorem detour_of_ne {j : Nat} (h : j ≠ k + 1) : detour rom trace k address j = trace j :=
  Function.update_of_ne h ..

theorem detour_self : detour rom trace k address (k + 1) =
    after rom (trace k).ram ((trace (k + 1)).cpu.astray address) :=
  Function.update_self ..

/-- After a state without a transition a trace may go astray. -/
theorem isTrace_detour (htrace : IsTrace rom options n trace) (hk : k < n)
    (hstop : (trace k).cpu.next? (trace k).dataIn = none)
    (haddress : address = (trace (k + 1)).cpu.addressBus ∨
      address = mirror (trace (k + 1)).cpu.addressBus) :
    IsTrace rom options n (detour rom trace k address) := by
  have hram : (detour rom trace k address (k + 1)).ram = (trace (k + 1)).ram := by
    rw [detour_self, (htrace.step k hk).ram]
    exact Cpu.store_astray _ haddress _
  refine ⟨?_, fun j hj => ?_⟩
  · rw [detour_of_ne (by omega)]
    exact htrace.start
  · rcases Nat.lt_trichotomy j k with hlt | rfl | hgt
    · rw [detour_of_ne (by omega), detour_of_ne (by omega)]
      exact htrace.step j hj
    · rw [detour_of_ne (by omega), detour_self]
      refine ⟨fun c hc => ?_, rfl, rfl⟩
      cases hstop.symm.trans hc
    · have hstep := htrace.step j hj
      rw [detour_of_ne (j := j + 1) (by omega)]
      by_cases hnext : j = k + 1
      · subst hnext
        refine ⟨fun c hc => ?_, by rw [hram]; exact hstep.ram, by rw [hram]; exact hstep.dataIn⟩
        rw [detour_self] at hc
        cases (Cpu.next?_astray _ _ _).symm.trans hc
      · rw [detour_of_ne hnext]
        exact hstep

theorem alike_detour (htrace : IsTrace rom options n trace) (hk : k < n)
    (haddress : address = (trace (k + 1)).cpu.addressBus ∨
      address = mirror (trace (k + 1)).cpu.addressBus) :
    Alike (trace n) (detour rom trace k address n) := by
  by_cases hn : n = k + 1
  · subst hn
    rw [detour_self]
    refine ⟨rfl, rfl, rfl, rfl, rfl, rfl, ?_⟩
    rw [(htrace.step k hk).ram]
    exact Cpu.store_astray _ haddress _
  · rw [detour_of_ne hn]
    exact ⟨rfl, rfl, rfl, rfl, rfl, rfl, rfl⟩

/-! ## Undetermined formulas -/

/-- The models of a formula are the traces whose last state has a property. -/
def Describes (rom : Cartridge.Rom) (options : MachineOptions) (n : Nat) (P : State → Prop)
    (f : Formula) : Prop :=
  ∀ I : Interpretation, I.Fits f.signature → (I.Satisfies f ↔
    ∃ trace, IsTrace rom options n trace ∧ ShowsTrace rom n trace I ∧ P (trace n))

/-- The address that a page sees is the one on the bus. -/
theorem not_showsTrace_update {trace' : Nat → State} (hk : k ≤ n) {other : BitVec 16}
    (hne : other ≠ (trace k).cpu.addressBus) : ¬ ShowsTrace rom n trace'
      (Function.update (interpretation rom trace)
        (Timeline.versionedName (Wire.address 0).name k) (.bits 16 other)) := by
  intro hshows
  have hphase := hshows.shown k hk
  have haddress := (hphase.inputs 0).address
  have hbus := hphase.values .addressBus
  have hwires : (Wire.cpu .addressBus).name ≠ (Wire.address 0).name :=
    Wire.name_injective.ne (by simp)
  have hnames : Timeline.versionedName Variable.addressBus.name k ≠
      Timeline.versionedName (Wire.address 0).name k := fun heq =>
    hwires (Timeline.versionedName_injective heq).1
  rw [version, Function.update_self] at haddress
  rw [version, Function.update_of_ne hnames] at hbus
  have hkept := (version_interpretation rom trace (.cpu .addressBus) k).symm.trans hbus
  have hsame : (trace k).cpu.addressBus = (trace' k).cpu.addressBus := by
    simpa [wireValue, signal] using hkept
  exact hne (by simpa [hsame] using haddress)

/-- A formula whose traces all come to a state without a transition has no model that propagation
could find: it would leave open an address that pages see, and the address on the bus. -/
theorem not_sat_of_stop {f : Formula} {P : State → Prop} (sorted : f.WellSorted)
    (short : f.ExtensionsBelow (2 ^ 62)) (hf : Describes rom options n P f)
    (fits : ∀ trace, (interpretation rom trace).Fits f.signature)
    (hsig : (Timeline.versionedName (Wire.address 0).name (k + 1), .bits 16) ∈ f.signature)
    (hP : ∀ s s', Alike s s' → P s → P s') (hk : k < n)
    (hstop : ∀ trace, IsTrace rom options n trace →
      (trace k).cpu.next? (trace k).dataIn = none) (m : Propagation.State) :
    Propagation.solve f ≠ .ok (.sat m) := by
  intro hsolve
  obtain ⟨wk, hmodels⟩ := Propagation.solve_decided sorted short hsolve
  -- a completion of the model shows a trace
  let J := interpretation rom fun _ => ⟨Cpu.start {}, 0, fun _ => 0⟩
  have hcomplete := (hmodels _ (wk.complete_fits (fits _))).1 (wk.complete_agrees (J := J) (fits _))
  obtain ⟨trace, htrace, -, hlast⟩ := (hf _ (wk.complete_fits (fits _))).1 hcomplete
  let bus := (trace (k + 1)).cpu.addressBus
  let y := Timeline.versionedName (Wire.address 0).name (k + 1)
  -- and so does every trace that goes astray from it
  have hagrees : ∀ address, address = bus ∨ address = mirror bus →
      m.Agrees (interpretation rom (detour rom trace k address)) := by
    intro address haddress
    refine (hmodels _ (fits _)).2 ((hf _ (fits _)).2 ⟨_, ?_, showsTrace_interpretation .., ?_⟩)
    · exact isTrace_detour htrace hk (hstop trace htrace) haddress
    · exact hP _ _ (alike_detour htrace hk haddress) hlast
  have hvalue : ∀ address, interpretation rom (detour rom trace k address) y = .bits 16 address := by
    intro address
    refine (version_interpretation _ _ (.address 0) (k + 1)).trans ?_
    rw [wireValue, detour_self]
    rfl
  have hopen : m.value? y = none := by
    refine Propagation.State.value?_eq_none (hagrees bus (.inl rfl)) (hagrees _ (.inr rfl)) ?_
    rw [hvalue, hvalue, Meaning.number?_bits, Meaning.number?_bits, ne_eq, Option.some.injEq,
      BitVec.toNat_inj]
    exact (mirror_ne bus).symm
  -- the signal of the page can be changed alone, but then it is not the address on the bus
  have hchanged := (hagrees bus (.inl rfl)).update wk hsig hopen (.bits 16 (mirror bus))
  have hfits := Propagation.fits_update wk.functional (fits (detour rom trace k bus)) hsig
    (v := .bits 16 (mirror bus)) rfl
  obtain ⟨trace', -, hshows, -⟩ := (hf _ hfits).1 ((hmodels _ hfits).1 hchanged)
  refine not_showsTrace_update hk ?_ hshows
  rw [detour_self]
  exact mirror_ne bus

/-- Such a formula has no model, or it is left undetermined. -/
theorem undetermined_or_unsat_of_stop {f : Formula} {P : State → Prop}
    (sorted : f.Sorted fun _ _ => False) (unique : (f.signature.map Prod.fst).Nodup)
    (hf : Describes rom options n P f) (fits : ∀ trace, (interpretation rom trace).Fits f.signature)
    (hsig : (Timeline.versionedName (Wire.address 0).name (k + 1), .bits 16) ∈ f.signature)
    (hP : ∀ s s', Alike s s' → P s → P s') (hk : k < n)
    (hstop : ∀ trace, IsTrace rom options n trace →
      (trace k).cpu.next? (trace k).dataIn = none) :
    (∃ count text, Propagation.solve f = .error (.undetermined count text)) ∨
      (∃ u, Propagation.solve f = .ok (.unsat u)) ∧
        ∀ trace, IsTrace rom options n trace → ¬ P (trace n) := by
  obtain ⟨wellSorted, short⟩ := Propagation.wellSorted_of_sorted sorted unique
  have hanswered := Propagation.answered_solve sorted unique
  cases hsolve : Propagation.solve f with
  | error e =>
    rw [hsolve] at hanswered
    cases e with
    | undetermined count text => exact .inl ⟨count, text, rfl⟩
    | _ => exact hanswered.elim
  | ok solution =>
    cases solution with
    | sat m => exact absurd hsolve (not_sat_of_stop wellSorted short hf fits hsig hP hk hstop m)
    | unsat u =>
      refine .inr ⟨⟨u, rfl⟩, fun trace htrace hlast => ?_⟩
      exact Propagation.solve_decided wellSorted short hsolve _ (fits trace)
        ((hf _ (fits trace)).2 ⟨trace, htrace, showsTrace_interpretation .., hlast⟩)

/-! ## Pinned machines -/

/-- A machine that was powered on with options and has run for `n` cycles: its formula is sorted,
it describes the traces of the reference machine, and it propagates along those with transitions. -/
structure Elapsed (rom : Cartridge.Rom) (options : MachineOptions) (n : Nat) (sys : Machine) :
    Prop extends Running rom n sys where
  accounted : Accounted sys.mapper.addressBits sys
  describes : Describes rom options n (fun _ => True) sys.formula
  settles : ∀ {I : Interpretation} {r : Registers} {image : ByteArray} {trace : Nat → State},
    options.registers = some r → options.ram = some image → image.size = ramSize →
    I.Fits sys.formula.signature → IsTrace rom options n trace → ShowsTrace rom n trace I →
    (∀ k < n, ((trace k).cpu.next? (trace k).dataIn).isSome) →
    Settles sys.mapper.addressBits sys.formula.signature I sys

theorem describes_formula {sys sys₀ sysₙ : Machine} (hsys : Assembled rom options sys)
    (hgrows : sys.Grows sys₀ (fun (_ : Unit) _ => True)
      (fun _ I => ∃ s, Initial rom options s ∧ version I 0 Ram.memory = .array 11 8 s.ram ∧
        version I 0 Cartridge.Mapper.prg = content rom ∧ Shows rom 0 s.ram s I))
    (hgrows' : sys₀.Grows sysₙ (StepStart rom 0)
      (fun s I => ∃ trace, trace 0 = s ∧ IsRun rom 0 n trace I)) :
    Describes rom options n (fun _ => True) sysₙ.formula := by
  intro I fits
  obtain ⟨f, hformula, hf⟩ := hgrows.andThen hgrows'
    fun _ s I _ h => ⟨h.2.2.2.values, h.2.2.2.ram, h.2.2.1⟩
  have hempty : sys.formula = [.logic ⟨"QF_ABV"⟩] := by
    rw [Machine.formula_eq, hsys.fragments]
    rfl
  rw [hformula, hempty] at fits ⊢
  rw [Interpretation.satisfies_append, hf () I (Interpretation.fits_append.1 fits).2 trivial]
  constructor
  · rintro ⟨-, _, hinitial, trace, rfl, hrun⟩
    obtain ⟨htrace, hshows⟩ := isTrace_iff.2 ⟨hinitial, hrun⟩
    exact ⟨trace, htrace, hshows, trivial⟩
  · rintro ⟨trace, htrace, hshows, -⟩
    obtain ⟨hinitial, hrun⟩ := isTrace_iff.1 ⟨htrace, hshows⟩
    exact ⟨by simp [Interpretation.Satisfies], trace 0, hinitial, trace, rfl, hrun⟩

theorem exists_elapsed {log : Log} {sys : Machine}
    (hsys : Machine.ofRom rom options log = .ok sys)
    (hsize : ∀ data, options.ram = some data → data.size ≤ ramSize) (n : Nat) :
    ∃ sys₀ sysₙ, sys.powerOn = (sys₀, .ok ()) ∧ sys₀.run n = (sysₙ, .ok ()) ∧
      Elapsed rom options n sysₙ := by
  have hassembled := assembled_of_ofRom hsys
  obtain ⟨sys₀, hpower, hrunning, hgrows⟩ := exists_powerOn hassembled hsize
  obtain ⟨sysₙ, hrun, hrunning', hgrows'⟩ := exists_run n hrunning
  have hstart := (accounted_of_ofRom hsys).powerOn hassembled.toBuilt hpower
  have hend := hstart.run hrunning hrun
  have hbits : sys.mapper.addressBits = sysₙ.mapper.addressBits := by
    rw [hassembled.mapper.addressBits, hrunning'.mapper.addressBits]
  have hdescribes := describes_formula hassembled hgrows hgrows'
  have hforward := forwardHandlers_of_ofRom hsys
  rw [Nat.zero_add] at hrunning'
  refine ⟨sys₀, sysₙ, hpower, hrun, hrunning', hbits ▸ hend, hdescribes, ?_⟩
  intro I r image trace hregisters hram himage fits htrace hshows hnext
  have hsat : I.Satisfies sysₙ.formula := (hdescribes I fits).2 ⟨trace, htrace, hshows, trivial⟩
  have hsig : ∀ y k, sysₙ.timeline.scope (kindOf sys.mapper.addressBits) y k →
      (y, k) ∈ sysₙ.formula.signature := fun y k => (hend.scope_iff y k).1
  obtain ⟨bs, fs, happlied⟩ := Machine.applied_of_run hrun
  obtain ⟨bs₀, fs₀, -, happlied₀⟩ := Machine.applied_of_powerOn hpower
  have hsat₀ : I.Satisfies sys₀.formula := by
    rw [happlied.formula_eq, Interpretation.satisfies_append] at hsat
    exact hsat.1
  have hsettled₀ := settles_powerOn hassembled hforward hregisters hram himage hpower fits
    (fun y k hy => hsig y k (happlied.yields.scope_mono hy)) hsat₀
    (hshows.shown 0 (Nat.zero_le n)).inputs
  rw [← hbits]
  refine settles_run trace hrunning ?_ hsettled₀ hrun fits hsig hsat
    (fun j hj => ?_) fun j hj => ?_
  · rw [ForwardHandlers, happlied₀.handlers]
    exact hforward
  · rw [Nat.zero_add]
    exact hshows.shown j hj
  · rw [Nat.zero_add]
    exact hnext j hj

namespace Elapsed

variable {sys : Machine} (h : Elapsed rom options n sys)
include h

/-- Every wire has a version. -/
theorem next_pos (w : Wire) : 0 < sys.timeline.next w.name := by
  rw [h.timeline w]
  cases w with
  | answer page => simp [Wire.count, page.isLt]
  | _ => simp [Wire.count]

theorem fits (trace : Nat → State) : (interpretation rom trace).Fits sys.formula.signature :=
  fun y j hy => fits_interpretation rom trace h.mapper ((h.accounted.scope_iff y j).2 hy)

/-- The signals of the pages are declared in every phase. -/
theorem address_mem (hk : k ≤ n) :
    (Timeline.versionedName (Wire.address 0).name k, .bits 16) ∈ sys.formula.signature := by
  refine (h.accounted.scope_iff _ _).1 ⟨(Wire.address 0).name, k, ?_, rfl,
    (kindOf_name sys.mapper.addressBits (.address 0)).symm⟩
  rw [h.timeline (.address 0)]
  exact Nat.lt_succ_of_le hk

/-- RAM and the bytes of the mapper have addresses of less than a word. -/
theorem narrow (x : String) (a d : Nat) (hx : (x, .array a d) ∈ sys.formula.signature) :
    a ≤ 64 := by
  obtain ⟨y, v, -, -, hkind⟩ := (h.accounted.scope_iff x _).2 hx
  have hwire : ∃ w : Wire, w.kind sys.mapper.addressBits = .array a d := by
    rw [kindOf] at hkind
    cases hfind : Wire.all.find? fun w => w.name == y with
    | none =>
      rw [hfind] at hkind
      cases hkind
    | some w =>
      rw [hfind] at hkind
      exact ⟨w, hkind.symm⟩
  obtain ⟨w, hw⟩ := hwire
  have hle := h.mapper.le
  cases w with
  | ram =>
    cases hw
    omega
  | prg =>
    cases hw
    omega
  | _ => cases hw

/-- Along a run with transitions all assertions can be settled in order. -/
theorem determines_run {r : Registers} {image : ByteArray}
    (hregisters : options.registers = some r) (hram : options.ram = some image)
    (hsize : image.size = ramSize) (himplemented : Implemented rom r image n) :
    Propagation.Determines sys.formula.signature (interpretation rom (run rom r image))
      (fun _ _ => False) (Propagation.assertedTerms sys.formula)
      (fun y j => (y, j) ∈ sys.formula.signature) := by
  have hsettles := h.settles hregisters hram hsize (h.fits (run rom r image))
    (isTrace_run hregisters hram (Nat.le_of_eq hsize) n) (showsTrace_interpretation ..)
    (run_next?_isSome himplemented)
  have hscope : sys.timeline.scope (kindOf sys.mapper.addressBits) =
      fun y j => (y, j) ∈ sys.formula.signature := by
    funext y j
    exact propext (h.accounted.scope_iff y j)
  rwa [Settles, hscope] at hsettles

end Elapsed

/-- With known registers and a full RAM all traces come to the same state without a transition. -/
theorem exists_stop_of_isTrace {r : Registers} {image : ByteArray}
    (hregisters : options.registers = some r) (hram : options.ram = some image)
    (hsize : image.size = ramSize) (h : ¬ Implemented rom r image n) :
    ∃ k < n, ∀ trace, IsTrace rom options n trace →
      (trace k).cpu.next? (trace k).dataIn = none := by
  obtain ⟨k, hk, himplemented, hstop⟩ := exists_stop h
  refine ⟨k, hk, fun trace htrace => ?_⟩
  rwa [eq_run_of_isTrace hregisters hram hsize htrace (Nat.le_of_lt hk)
    (run_next?_isSome himplemented)]

/-- After power on with known registers and a full RAM, and any number of cycles, propagation finds
the run of the reference machine if it decodes implemented opcodes only: the value of every word and
every cell of RAM and of the mapper. Otherwise the formula is left undetermined. -/
theorem solve_formula_of_pinned {log : Log} {sys : Machine}
    (hsys : Machine.ofRom rom options log = .ok sys) {r : Registers} {image : ByteArray}
    (hregisters : options.registers = some r) (hram : options.ram = some image)
    (hsize : image.size = ramSize) (n : Nat) :
    ∃ sys₀ sysₙ, sys.powerOn = (sys₀, .ok ()) ∧ sys₀.run n = (sysₙ, .ok ()) ∧
      ShowsTrace rom n (run rom r image) (interpretation rom (run rom r image)) ∧
      (Implemented rom r image n → ∃ m, Propagation.solve sysₙ.formula = .ok (.sat m) ∧
        Propagation.KnowsAll m sysₙ.formula.signature (interpretation rom (run rom r image))) ∧
      (¬ Implemented rom r image n → ∃ count text,
        Propagation.solve sysₙ.formula = .error (.undetermined count text)) := by
  have hle : ∀ data, options.ram = some data → data.size ≤ ramSize := by
    intro data hdata
    cases hram.symm.trans hdata
    exact Nat.le_of_eq hsize
  obtain ⟨sys₀, sysₙ, hpower, hrun, helapsed⟩ := exists_elapsed hsys hle n
  refine ⟨sys₀, sysₙ, hpower, hrun, showsTrace_interpretation .., fun himplemented => ?_,
    fun hfails => ?_⟩
  · obtain ⟨q, hsolve, hknowing⟩ := Propagation.solve_of_determines
      helapsed.accounted.unique_formula (helapsed.determines_run hregisters hram hsize himplemented)
    exact ⟨q.state, hsolve, Propagation.knowsAll_of_knowing (helapsed.fits _) hknowing
      helapsed.narrow⟩
  · obtain ⟨k, hk, hstop⟩ := exists_stop_of_isTrace hregisters hram hsize hfails
    refine (undetermined_or_unsat_of_stop helapsed.accounted.sorted_formula
      helapsed.accounted.unique_formula helapsed.describes helapsed.fits
      (helapsed.address_mem hk) (fun _ _ _ _ => trivial) hk hstop).resolve_right fun hnone => ?_
    exact hnone.2 _ (isTrace_run hregisters hram (Nat.le_of_eq hsize) n) trivial

/-- A RAM of loads runs for twelve cycles; a RAM of zeros stops at the first opcode. -/
theorem solve_formula_of_pinned_loads :
    (∃ sys sys₀ sysₙ m, Machine.ofRom ⟨"", 0, Bytes.zeros 16384⟩
        { registers := some {}, ram := some ⟨Array.replicate 2048 0xA9⟩ } = .ok sys ∧
      sys.powerOn = (sys₀, .ok ()) ∧ sys₀.run 12 = (sysₙ, .ok ()) ∧
      Propagation.solve sysₙ.formula = .ok (.sat m) ∧
      Propagation.KnowsAll m sysₙ.formula.signature (interpretation ⟨"", 0, Bytes.zeros 16384⟩
        (run ⟨"", 0, Bytes.zeros 16384⟩ {} ⟨Array.replicate 2048 0xA9⟩))) ∧
    ∃ sys sys₀ sysₙ count text, Machine.ofRom ⟨"", 0, Bytes.zeros 16384⟩
        { extensionality := true, registers := some {}, ram := some (Bytes.zeros 2048) } = .ok sys ∧
      sys.powerOn = (sys₀, .ok ()) ∧ sys₀.run 9 = (sysₙ, .ok ()) ∧
      Propagation.solve sysₙ.formula = .error (.undetermined count text) := by
  have hbank : (Bytes.zeros 16384).size = Cartridge.bankSize := Array.size_replicate
  have hm : Cartridge.Mapper.ofRom ⟨"", 0, Bytes.zeros 16384⟩ =
      .ok ⟨⟨"", 0, Bytes.zeros 16384⟩, 14⟩ := by
    rw [Cartridge.Mapper.ofRom, if_neg (by simp), if_pos hbank]
  have hsize : ∀ b, ByteArray.size ⟨Array.replicate 2048 b⟩ = ramSize :=
    fun b => Array.size_replicate
  constructor
  · obtain ⟨sys, hsys, -⟩ := exists_ofRom hm
      { registers := some {}, ram := some ⟨Array.replicate 2048 0xA9⟩ } .central
    obtain ⟨sys₀, sysₙ, hpower, hrun, -, hsat, -⟩ :=
      solve_formula_of_pinned hsys rfl rfl (hsize _) 12
    obtain ⟨m, hsolve, hknows⟩ := hsat (by
      simp only [Implemented, run_zeros]
      decide +kernel)
    exact ⟨sys, sys₀, sysₙ, m, hsys, hpower, hrun, hsolve, hknows⟩
  · obtain ⟨sys, hsys, -⟩ := exists_ofRom hm
      { extensionality := true, registers := some {}, ram := some (Bytes.zeros 2048) } .central
    obtain ⟨sys₀, sysₙ, hpower, hrun, -, -, hopen⟩ :=
      solve_formula_of_pinned hsys rfl rfl (hsize _) 9
    obtain ⟨count, text, hsolve⟩ := hopen (by
      simp only [Implemented, run_zeros]
      decide +kernel)
    exact ⟨sys, sys₀, sysₙ, count, text, hsys, hpower, hrun, hsolve⟩

end Cycle

end CycleCheck
