import CycleCheck.Proofs.Cycle.WellFormed
import CycleCheck.Proofs.Propagation.Forward

/-!
Blocks as definitions. Where everything that a block reads is known, its assertions can be settled
in their order, and afterwards everything that it writes is known. For a cycle of the processor
this needs a transition, and for the back half of the bus a page that is selected.
-/

namespace CycleCheck.Cycle

open Processor Memory Propagation

/-- The symbols of the wires that a block writes. -/
def written (bits : Nat) (ω : String → Symbol) (ws : List Wire) : List (String × Kind) :=
  ws.map fun w => ((ω w.name).name, w.kind bits)

/-- A block among known values: what it reads is known, what it writes is declared and new. -/
structure Placed (bits : Nat) (sig : Signature) (I : Interpretation) (Γ : Scope)
    (ρ ω : String → Symbol) (rs ws : List Wire) : Prop where
  fits : I.Fits sig
  known : ∀ w ∈ rs, Γ (ρ w.name).name (w.kind bits)
  declared : ∀ w ∈ ws, ((ω w.name).name, w.kind bits) ∈ sig
  free : ∀ w ∈ ws, Γ.Free (ω w.name).name

/-- A block on wires that determines what it writes, where the values it reads satisfy `G`. -/
structure Forward (bits : Nat) (b : Block) (rs ws : List Wire) (G : Valuation → Prop) : Prop where
  reads : b.reads = rs.map Wire.name
  writes : b.writes = ws.map Wire.name
  keeps : b.Keeps
  determines : ∀ {sig : Signature} {I : Interpretation} {Γ : Scope} {ρ ω : String → Symbol}
    {f : Formula}, Placed bits sig I Γ ρ ω rs ws →
    b.generate (.of (rs.map Wire.name) ρ) (.of (ws.map Wire.name) ω) = .ok f → I.Satisfies f →
    G (fun x => I (ρ x).name) → Determines sig I Γ (assertedTerms f) (Γ.extend (written bits ω ws))

section Placed

variable {bits : Nat} {sig : Signature} {I : Interpretation} {Γ : Scope} {ρ ω : String → Symbol}
  {rs ws : List Wire} {f : Formula}

theorem Placed.read (h : Placed bits sig I Γ ρ ω rs ws) {w : Wire} (hw : w ∈ rs) :
    ((Binding.of (rs.map Wire.name) ρ).term w.name).Evaluable Γ (w.kind bits) := by
  rw [Binding.term_of (List.mem_map_of_mem hw)]
  exact .symbol (h.known w hw)

/-- What is evaluable from the wires of a block that writes nothing is evaluable where they are
known. -/
theorem Placed.sub (h : Placed bits sig I Γ ρ ω rs ws) (x : String) (k : Kind)
    (hx : blockScope bits ρ ω rs [] x k) : Γ x k := by
  rcases hx with ⟨w, hw, rfl, rfl⟩ | ⟨w, hw, -⟩
  · exact h.known w hw
  · cases hw

/-! ## The processor -/

/-- The consequent of a rule gives the outputs their terms. -/
theorem determines_consequent (fits : I.Fits sig) {after : Variable → Term} {σ : Variable → Symbol}
    (hafter : ∀ v ∈ Variable.outputs, after v = .symbol (σ v))
    (hdeclared : ∀ v ∈ Variable.outputs, ((σ v).name, .bits (bitsOf v)) ∈ sig) {e : Draft}
    (he : Typed Γ e) (hholds : I.Holds (consequent after e)) :
    Determines sig I Γ [consequent after e]
      (Γ.extend (Variable.outputs.map fun v => ((σ v).name, .bits (bitsOf v)))) := by
  have heq : (Variable.outputs.map fun v => Term.eq (after v) (e v)) =
      Variable.outputs.map fun v => .eq (.symbol (σ v)) (e v) :=
    List.map_congr_left fun v hv => by rw [hafter v hv]
  rw [consequent, heq] at hholds ⊢
  rw [Interpretation.holds_all, List.forall_mem_map] at hholds
  exact .all (.assignments fits hdeclared (fun v _ => he v) hholds)

/-- A cycle determines the outputs, if there is a transition. -/
theorem forward_cycle (bits : Nat) : Forward bits Processor.standard.cycle
    (Variable.inputs.map .cpu) (Variable.outputs.map .cpu)
    (fun e => ∃ c d, (∀ v : Variable, e v.name = signal c d v) ∧ (c.next? d).isSome) := by
  refine ⟨rfl, rfl, fun _ _ => rfl, fun {sig I Γ ρ ω f} h hf hsat hG => ?_⟩
  obtain ⟨c, d, hvalues, hnext⟩ := hG
  obtain ⟨c', hc'⟩ := Option.isSome_iff_exists.1 hnext
  obtain ⟨rules, rfl, hrules⟩ := exists_of_cycle hf
    (@typed_inputs bits ρ ω [])
  have hwritten : written bits ω (Variable.outputs.map .cpu) =
      Variable.outputs.map fun v => ((ω v.name).name, .bits (bitsOf v)) := List.map_map ..
  have hafter : ∀ v ∈ Variable.outputs,
      Binding.term (.of ((Variable.outputs.map Wire.cpu).map Wire.name) ω) v.name =
        .symbol (ω v.name) := fun v hv =>
    Binding.term_of (List.mem_map_of_mem (f := Wire.name) (a := .cpu v) (List.mem_map_of_mem hv))
  have hdeclared : ∀ v ∈ Variable.outputs, ((ω v.name).name, .bits (bitsOf v)) ∈ sig :=
    fun v hv => h.declared (.cpu v) (List.mem_map_of_mem hv)
  have hbefore : Gives I (fun v => Binding.term
      (.of ((Variable.inputs.map Wire.cpu).map Wire.name) ρ) v.name) c d := fun v =>
    (denote_read _ (.cpu v) (List.mem_map_of_mem (mem_inputs v))).trans (hvalues v)
  rw [assertedTerms_append, assertedTerms_of_silent not_assert_of_note_declareOutputs,
    List.nil_append, hwritten]
  refine .implications h.fits (fun _ _ => Or.inl) (fun t ht => ?_) ?_
  · have hholds : I.Holds t := hsat t (List.mem_append_right _ (mem_assertedTerms.1 ht))
    obtain ⟨r, hr, e, heq, he⟩ := hrules.each _ (mem_assertedTerms.1 ht)
    cases heq
    refine ⟨_, _, rfl, (evaluable_antecedent hr typed_inputs).mono h.sub, fun hante => ?_⟩
    have hcons := I.holds_implies.1 hholds hante
    have htyped : Typed Γ e := fun v => (he v).mono h.sub
    have hagain := determines_consequent h.fits hafter hdeclared
      (fun v => (htyped v).extend (Variable.outputs.map fun v =>
        ((ω v.name).name, .bits (bitsOf v)))) hcons
    rw [Scope.extend_self] at hagain
    exact ⟨determines_consequent h.fits hafter hdeclared htyped hcons, hagain⟩
  · obtain ⟨r, hr, happ⟩ := exists_applies hbefore hc'
    obtain ⟨e, he⟩ := hrules.every r hr
    exact ⟨_, _, mem_assertedTerms.2 he, (holds_antecedent hbefore).2 happ⟩

/-- The outputs in the order in which power on gives them values. -/
def poweredOutputs : List Variable :=
  [.state, .resetSequence, .addressBus, .writeEnable, .dataOut, .a, .x, .y, .sp, .p, .pc,
    .tempAddress, .tempPointer]

/-- The value of an output at power on with known registers. -/
def poweredValue (r : Registers) : Variable → Nat
  | .a => r.a.toNat
  | .x => r.x.toNat
  | .y => r.y.toNat
  | .sp => r.sp.toNat
  | .p => r.p.toNat
  | .pc => r.pc.toNat
  | _ => 0

theorem poweredValue_lt (r : Registers) (v : Variable) : poweredValue r v < 2 ^ bitsOf v := by
  cases v with
  | a => exact r.a.toNat_lt
  | x => exact r.x.toNat_lt
  | y => exact r.y.toNat_lt
  | sp => exact r.sp.toNat_lt
  | p => exact r.p.toNat_lt
  | pc => exact r.pc.toNat_lt
  | _ => exact Nat.two_pow_pos _

/-- Power on with known registers determines the outputs. -/
theorem forward_powerOn (bits : Nat) (r : Registers) :
    Forward bits (Processor.standard.powerOn (some r)) [] (Variable.outputs.map .cpu)
      (fun _ => True) := by
  refine ⟨rfl, rfl, fun _ _ => rfl, fun {sig I Γ ρ ω f} h hf hsat _ => ?_⟩
  have hmem : ∀ v, v ∈ poweredOutputs ↔ v ∈ Variable.outputs := by
    intro v
    cases v <;> decide
  have hout : ∀ v ∈ Variable.outputs,
      Binding.term (.of ((Variable.outputs.map Wire.cpu).map Wire.name) ω) v.name =
        .symbol (ω v.name) := fun v hv =>
    Binding.term_of (List.mem_map_of_mem (f := Wire.name) (a := .cpu v) (List.mem_map_of_mem hv))
  have hterms : assertedTerms f = poweredOutputs.map fun v =>
      .eq (.symbol (ω v.name)) (.word (Processor.standard.width v) (poweredValue r v)) := by
    have hraw : assertedTerms f = poweredOutputs.map fun v =>
        .eq (Binding.term (.of ((Variable.outputs.map Wire.cpu).map Wire.name) ω) v.name)
          (.word (Processor.standard.width v) (poweredValue r v)) := by
      cases hf
      rw [assertedTerms_append, assertedTerms_append,
        assertedTerms_of_silent not_assert_of_note_declareOutputs]
      rfl
    rw [hraw]
    exact List.map_congr_left fun v hv => by rw [hout v ((hmem v).1 hv)]
  have hwritten : Γ.extend (written bits ω (Variable.outputs.map .cpu)) =
      Γ.extend (poweredOutputs.map fun v => ((ω v.name).name, .bits (bitsOf v))) := by
    refine Γ.extend_congr fun e => ?_
    simp only [written, List.map_map, List.mem_map, hmem]
    rfl
  have hsatTerms : ∀ t ∈ assertedTerms f, I.Holds t := fun t ht => hsat t (mem_assertedTerms.1 ht)
  rw [hterms, List.forall_mem_map] at hsatTerms
  rw [hterms, hwritten]
  refine .assignments h.fits (fun v hv => ?_) (fun v _ => ?_) hsatTerms
  · exact h.declared (.cpu v) (List.mem_map_of_mem ((hmem v).1 hv))
  · exact evaluable_fixed v (poweredValue_lt r v)

/-! ## RAM and ROM -/

/-- Bytes in order, as assertions about cells. -/
theorem assertedTerms_bytes (data : ByteArray) (t : Nat → UInt8 → Term) :
    assertedTerms (data.toList.mapIdx fun i b => .assert (t i b)) =
      (List.range data.size).map fun i => t i (Bytes.get data i) := by
  rw [mapIdx_bytes, assertedTerms_map_assert]

/-- The ROM is determined by its bytes. -/
theorem forward_initialiser {m : Cartridge.Mapper} {rom : Cartridge.Rom} (hm : MapsTo m rom) :
    Forward m.addressBits m.initialiser [] [.prg] (fun _ => True) := by
  refine ⟨rfl, rfl, fun _ _ => rfl, fun {sig I Γ ρ ω f} h hf hsat _ => ?_⟩
  have hout : Binding.symbol (.of ([Wire.prg].map Wire.name) ω) Cartridge.Mapper.prg =
      ω Wire.prg.name := symbol_write _ .prg (by simp)
  have hsize : m.rom.prg.size = 2 ^ m.addressBits := by rw [hm.source, hm.size]
  have hterms : assertedTerms f = (List.range (2 ^ m.addressBits)).map fun i =>
      .eq (.select (.symbol (ω Wire.prg.name)) (.word m.addressBits i))
        (.word 8 (Bytes.get m.rom.prg i).toNat) := by
    cases hf
    rw [assertedTerms_note, assertedTerms_declareArray, assertedTerms_bytes, hout, hsize]
  have hsatTerms : ∀ t ∈ assertedTerms f, I.Holds t := fun t ht => hsat t (mem_assertedTerms.1 ht)
  rw [hterms, List.forall_mem_map] at hsatTerms
  rw [hterms]
  have hle := hm.le
  exact .filled h.fits (h.declared .prg (by simp)) (h.free .prg (by simp)) hm.one_le (by omega)
    (fun i _ => evaluable_byte _) fun i hi => hsatTerms i (List.mem_range.2 hi)

/-- RAM that is declared and then given all its bytes. -/
theorem determines_contents {data : ByteArray} (hdata : data.size = ramSize) {b : Block}
    (hb : Ram.contents 0 data = .ok b) (hf : b.generate (.of [Wire.ram.name] ρ) (.of [] ω) = .ok f)
    (fits : I.Fits sig) (declared : ((ρ Wire.ram.name).name, .array 11 8) ∈ sig)
    (free : Γ.Free (ρ Wire.ram.name).name) (hsat : I.Satisfies f) :
    Determines sig I Γ (assertedTerms f) (Γ.extend [((ρ Wire.ram.name).name, .array 11 8)]) := by
  have hterms : assertedTerms f = (List.range (2 ^ 11)).map fun i =>
      .eq (.select (.symbol (ρ Wire.ram.name)) (.word 11 i))
        (.word 8 (Bytes.get data i).toNat) := by
    unfold Ram.contents at hb
    split_ifs at hb
    cases hb
    cases hf
    have hin : Binding.term (.of [Wire.ram.name] ρ) Ram.memory = .symbol (ρ Wire.ram.name) :=
      Binding.term_of (x := Wire.ram.name) (by simp)
    rw [assertedTerms_note, assertedTerms_bytes, hdata, hin]
    simp only [Nat.zero_add]
    rfl
  have hsatTerms : ∀ t ∈ assertedTerms f, I.Holds t := fun t ht => hsat t (mem_assertedTerms.1 ht)
  rw [hterms, List.forall_mem_map] at hsatTerms
  rw [hterms]
  exact .filled fits declared free (by decide) (by decide) (fun i _ => evaluable_byte _)
    fun i hi => hsatTerms i (List.mem_range.2 hi)

/-! ## Handlers of pages -/

section Equality

variable {next : Symbol} {before address data : Term}

theorem determines_unchanged (r : Ram) (fits : I.Fits sig)
    (declared : (next.name, .array 11 8) ∈ sig) (free : Γ.Free next.name)
    (hb : before.Evaluable Γ (.array 11 8)) (holds : I.Holds (r.unchanged (.symbol next) before)) :
    Determines sig I Γ [r.unchanged (.symbol next) before]
      (Γ.extend [(next.name, .array 11 8)]) := by
  unfold Ram.unchanged at holds ⊢
  split_ifs at holds ⊢
  · exact .defined fits declared free hb holds
  · rw [Interpretation.holds_all, List.forall_mem_map] at holds
    exact .all (.filled fits declared free (by decide) (by decide)
      (fun i hi => evaluable_cell hb hi) fun i hi => holds i (List.mem_range.2 hi))

theorem determines_stored (r : Ram) (fits : I.Fits sig)
    (declared : (next.name, .array 11 8) ∈ sig) (free : Γ.Free next.name)
    (hb : before.Evaluable Γ (.array 11 8)) (ha : address.Evaluable Γ (.bits 11))
    (hd : data.Evaluable Γ (.bits 8))
    (holds : I.Holds (r.stored (.symbol next) before address data)) :
    Determines sig I Γ [r.stored (.symbol next) before address data]
      (Γ.extend [(next.name, .array 11 8)]) := by
  unfold Ram.stored at holds ⊢
  split_ifs at holds ⊢
  · exact .defined fits declared free (hb.store ha hd) holds
  · rw [Interpretation.holds_all, List.forall_mem_map] at holds
    refine .all (.filled fits declared free (by decide) (by decide) (fun i hi => ?_)
      fun i hi => holds i (List.mem_range.2 hi))
    exact .ite (ha.eq (.word (by decide) (by decide) hi)) hd (evaluable_cell hb hi)

end Equality

/-- RAM and the answer of a page get their values together. -/
theorem determines_pair (fits : I.Fits sig) {next out : Symbol} {t u : Term}
    (hout : (out.name, .bits 8) ∈ sig) (hu : u.Evaluable Γ (.bits 8))
    (ht : I.Holds t → Determines sig I Γ [t] (Γ.extend [(next.name, .array 11 8)]))
    (holds : I.Holds (.all [t, .eq (.symbol out) u])) :
    Determines sig I Γ [.all [t, .eq (.symbol out) u]]
      (Γ.extend [(next.name, .array 11 8), (out.name, .bits 8)]) := by
  simp only [Interpretation.holds_all, List.forall_mem_cons] at holds
  have hlast := Determines.assigned fits hout (hu.extend [(next.name, .array 11 8)]) holds.2.1
  rw [Scope.extend_append] at hlast
  exact .all ((ht holds.1).append hlast)

/-- The implications of a RAM page: not selected, read and written. -/
def ramTerms (r : Ram) (select address write data before : Term) (next out : Symbol) : List Term :=
  [.implies (.not (.eq select (.bit true)))
      (.all [r.unchanged (.symbol next) before, .eq (.symbol out) (.word 8 0)]),
    .implies (.all [.eq select (.bit true), .not (.eq write (.bit true))])
      (.all [r.unchanged (.symbol next) before,
        .eq (.symbol out) (.select before (.extract (ramBits - 1) 0 address))]),
    .implies (.all [.eq select (.bit true), .eq write (.bit true)])
      (.all [r.stored (.symbol next) before (.extract (ramBits - 1) 0 address) data,
        .eq (.symbol out) data])]

/-- Exactly one of the implications of a RAM page applies. -/
theorem determines_ram (r : Ram) (fits : I.Fits sig) {select address write data before : Term}
    {next out : Symbol} (declared : (next.name, .array 11 8) ∈ sig) (free : Γ.Free next.name)
    (hout : (out.name, .bits 8) ∈ sig) (hselect : select.Evaluable Γ (.bits 1))
    (haddress : address.Evaluable Γ (.bits 16)) (hwrite : write.Evaluable Γ (.bits 1))
    (hdata : data.Evaluable Γ (.bits 8)) (hbefore : before.Evaluable Γ (.array 11 8))
    (holds : ∀ t ∈ ramTerms r select address write data before next out, I.Holds t) :
    Determines sig I Γ (ramTerms r select address write data before next out)
      (Γ.extend [(next.name, .array 11 8), (out.name, .bits 8)]) := by
  have hselected : (Term.eq select (.bit true)).Evaluable Γ .truth := hselect.eq (.bit true)
  have hwriting : (Term.eq write (.bit true)).Evaluable Γ .truth := hwrite.eq (.bit true)
  have hwindow : (Term.extract (ramBits - 1) 0 address).Evaluable Γ (.bits 11) :=
    .extract (by decide) (by decide) (by decide) haddress
  have hreading : (Term.all [.eq select (.bit true), .not (.eq write (.bit true))]).Evaluable Γ
      .truth := .all (by simpa using ⟨hselected, hwriting.not⟩)
  have hstoring : (Term.all [.eq select (.bit true), .eq write (.bit true)]).Evaluable Γ .truth :=
    .all (by simpa using ⟨hselected, hwriting⟩)
  have hsame := determines_unchanged r fits declared free hbefore
  simp only [ramTerms, List.forall_mem_cons] at holds
  obtain ⟨hidle, hread, hstore, -⟩ := holds
  by_cases hs : I.Holds (.eq select (.bit true))
  · have hnot : ¬ I.Holds (.not (.eq select (.bit true))) := fun h => I.holds_not.1 h hs
    by_cases hw : I.Holds (.eq write (.bit true))
    · have hante : I.Holds (.all [.eq select (.bit true), .eq write (.bit true)]) := by
        simp [Interpretation.holds_all, hs, hw]
      have hskip : ¬ I.Holds (.all [.eq select (.bit true), .not (.eq write (.bit true))]) := by
        simp [Interpretation.holds_all, Term.not, I.holds_not, hw]
      exact .cons (.vacuous fits _ hselected.not hnot) (.cons (.vacuous fits _ hreading hskip)
        (.discharged fits hstoring hante (determines_pair fits hout hdata
          (determines_stored r fits declared free hbefore hwindow hdata)
          (I.holds_implies.1 hstore hante))))
    · have hante : I.Holds (.all [.eq select (.bit true), .not (.eq write (.bit true))]) := by
        simp [Interpretation.holds_all, Term.not, I.holds_not, hs, hw]
      have hskip : ¬ I.Holds (.all [.eq select (.bit true), .eq write (.bit true)]) := by
        simp [Interpretation.holds_all, hw]
      exact .cons (.vacuous fits _ hselected.not hnot) (.cons (.discharged fits hreading hante
        (determines_pair fits hout (hbefore.select hwindow) hsame (I.holds_implies.1 hread hante)))
        (.vacuous fits _ (hstoring.extend _) hskip))
  · have hante : I.Holds (.not (.eq select (.bit true))) := I.holds_not.2 hs
    have hskip : ∀ t, ¬ I.Holds (.all [.eq select (.bit true), t]) := by
      simp [Interpretation.holds_all, hs]
    exact .cons (.discharged fits hselected.not hante (determines_pair fits hout evaluable_zero
      hsame (I.holds_implies.1 hidle hante))) (.cons (.vacuous fits _ (hreading.extend _) (hskip _))
        (.vacuous fits _ (hstoring.extend _) (hskip _)))

theorem forward_ramHandler (bits : Nat) (r : Ram) (page : Fin 16) :
    Forward bits (r.handler page.val).block
      [.select page, .address page, .write page, .data page, .ram] [.ram, .answer page]
      (fun _ => True) := by
  refine ⟨rfl, rfl, fun _ _ => rfl, fun {sig I Γ ρ ω f} h hf hsat _ => ?_⟩
  have hsatTerms : ∀ t ∈ assertedTerms f, I.Holds t := fun t ht => hsat t (mem_assertedTerms.1 ht)
  cases hf
  have hnext := symbol_write (ω := ω) [.ram, .answer page] .ram (by simp)
  have hanswer := symbol_write (ω := ω) [.ram, .answer page] (.answer page) (by simp)
  have hmain := determines_ram r h.fits (h.declared .ram (by simp)) (h.free .ram (by simp))
    (h.declared (.answer page) (by simp)) (h.read (w := .select page) (by simp))
    (h.read (w := .address page) (by simp)) (h.read (w := .write page) (by simp))
    (h.read (w := .data page) (by simp)) (h.read (w := .ram) (by simp))
  rw [← hnext, ← hanswer] at hmain
  have hwritten : written bits ω [.ram, .answer page] =
      [((ω Wire.ram.name).name, .array 11 8), ((ω (Wire.answer page).name).name, .bits 8)] := rfl
  rw [hwritten, ← hnext, ← hanswer]
  exact hmain hsatTerms

/-- The answer of a page without RAM. -/
theorem forward_answer {b : Block} {page : Fin 16} (answer : Binding → Term)
    (reads : b.reads = rs.map Wire.name) (writes : b.writes = [(Wire.answer page).name])
    (keeps : b.Keeps) (hgen : ∀ inp out, b.generate inp out =
      .ok [declare (out.symbol (Wire.answer page).name) 8,
        .assert (.eq (.symbol (out.symbol (Wire.answer page).name)) (answer inp))])
    (hanswer : ∀ {sig : Signature} {I : Interpretation} {Γ : Scope} {ρ ω : String → Symbol},
      Placed bits sig I Γ ρ ω rs [.answer page] →
        (answer (.of (rs.map Wire.name) ρ)).Evaluable Γ (.bits 8)) :
    Forward bits b rs [.answer page] (fun _ => True) := by
  refine ⟨reads, writes, keeps, fun {sig I Γ ρ ω f} h hf hsat _ => ?_⟩
  rw [hgen, symbol_write _ _ (by simp)] at hf
  cases hf
  exact .assigned h.fits (h.declared (.answer page) (by simp)) (hanswer h)
    (hsat _ (by simp))

theorem forward_nullHandler (bits : Nat) (page : Fin 16) :
    Forward bits (nullHandler page.val).block [] [.answer page] (fun _ => True) :=
  forward_answer (fun _ => .word 8 0) rfl rfl (fun _ _ => rfl) (fun _ _ => rfl)
    fun _ => evaluable_zero

theorem forward_romHandler {m : Cartridge.Mapper} {rom : Cartridge.Rom} (hm : MapsTo m rom)
    (page : Fin 16) {h : PageHandler} (hh : m.handler? page.val = some h) :
    Forward m.addressBits h.block [.address page, .prg] [.answer page] (fun _ => True) := by
  unfold Cartridge.Mapper.handler? at hh
  split_ifs at hh
  cases hh
  refine forward_answer (fun inp => .select (inp.term Cartridge.Mapper.prg)
    (.extract (m.addressBits - 1) 0 (inp.term (Wire.address page).name))) rfl rfl
    (fun _ _ => rfl) (fun _ _ => rfl) fun {sig I Γ ρ ω} hplaced => ?_
  have hle := hm.le
  have hone := hm.one_le
  have hoffset : (Term.extract (m.addressBits - 1) 0 (Binding.term (.of ([Wire.address page,
      .prg].map Wire.name) ρ) (Wire.address page).name)).Evaluable Γ
        (.bits (m.addressBits - 1 - 0 + 1)) :=
    .extract (Nat.zero_le _) (by omega) (by decide) (hplaced.read (w := .address page) (by simp))
  rw [show m.addressBits - 1 - 0 + 1 = m.addressBits by omega] at hoffset
  exact (hplaced.read (w := .prg) (by simp)).select hoffset

theorem forward_handlerOf {r : Ram} {m : Cartridge.Mapper} {rom : Cartridge.Rom} (hm : MapsTo m rom)
    {page : Fin 16} {h : PageHandler} (hh : Machine.handlerOf r m page = .ok h) :
    ∃ rs ws, Forward m.addressBits h.block rs ws (fun _ => True) := by
  obtain ⟨_, rfl⟩ | ⟨_, _, rfl⟩ | ⟨_, hmapped⟩ := handlerOf_cases hh
  · exact ⟨_, _, forward_ramHandler _ r page⟩
  · exact ⟨_, _, forward_nullHandler _ page⟩
  · exact ⟨_, _, forward_romHandler hm page hmapped⟩

/-! ## The halves of the bus -/

/-- The width of a signal of a page. -/
def signalWidth : Wire → Nat
  | .address _ => 16
  | .data _ => 8
  | _ => 1

/-- The term that the front half gives to a signal of a page. -/
def signalTerm (inp : Binding) : Wire → Term
  | .select page => .ite (.eq (.extract 15 12 (inp.term Variable.addressBus.name))
      (.word 4 page.val)) (.bit true) (.bit false)
  | .address _ => inp.term Variable.addressBus.name
  | .write _ => inp.term Variable.writeEnable.name
  | _ => inp.term Variable.dataOut.name

theorem kind_of_mem_frontWires (bits : Nat) {w : Wire} (hw : w ∈ frontWires) :
    w.kind bits = .bits (signalWidth w) := by
  obtain ⟨page, hw⟩ := (mem_frontWires_iff w).1 hw
  simp only [Wire.inputs, List.mem_cons, List.not_mem_nil, or_false] at hw
  rcases hw with rfl | rfl | rfl | rfl <;> rfl

/-- The front half gives each signal of a page its term. -/
theorem assertedTerms_frontHalf {f : Formula} (hf : (frontHalf pageSlots).generate
    (.of ([Wire.cpu .addressBus, .cpu .writeEnable, .cpu .dataOut].map Wire.name) ρ)
    (.of (frontWires.map Wire.name) ω) = .ok f) :
    assertedTerms f = frontWires.map fun w => .eq (.symbol (ω w.name)) (signalTerm
      (.of ([Wire.cpu .addressBus, .cpu .writeEnable, .cpu .dataOut].map Wire.name) ρ) w) := by
  let inp := Binding.of ([Wire.cpu .addressBus, .cpu .writeEnable, .cpu .dataOut].map Wire.name) ρ
  rw [generate_frontHalf] at hf
  cases hf
  have hwires : (frontWires.map fun w => Term.eq (.symbol (ω w.name)) (signalTerm inp w)) =
      (List.finRange 16).flatMap fun page =>
        (Wire.inputs page).map fun w => .eq (.symbol (ω w.name)) (signalTerm inp w) :=
    List.map_flatMap
  rw [assertedTerms_note, assertedTerms_flatten, List.flatMap_map, hwires]
  refine List.flatMap_congr fun page _ => ?_
  have hout : ∀ w ∈ Wire.inputs page,
      (Binding.of (frontWires.map Wire.name) ω).symbol w.name = ω w.name :=
    fun w hw => symbol_write _ _ (mem_frontWires hw)
  simp only [Wire.inputs, List.forall_mem_cons] at hout
  obtain ⟨hselect, haddress, hwrite, hdata, -⟩ := hout
  rw [pageCommands, hselect, haddress, hwrite, hdata]
  rfl

theorem forward_frontHalf (bits : Nat) : Forward bits (frontHalf pageSlots)
    [.cpu .addressBus, .cpu .writeEnable, .cpu .dataOut] frontWires (fun _ => True) := by
  refine ⟨rfl, writes_frontHalf, fun _ _ => rfl, fun {sig I Γ ρ ω f} h hf hsat _ => ?_⟩
  let inp := Binding.of ([Wire.cpu .addressBus, .cpu .writeEnable, .cpu .dataOut].map Wire.name) ρ
  have hterms := assertedTerms_frontHalf hf
  have hwritten : written bits ω frontWires =
      frontWires.map fun w => ((ω w.name).name, .bits (signalWidth w)) :=
    List.map_congr_left fun w hw => by rw [kind_of_mem_frontWires bits hw]
  have hbus := h.read (w := .cpu .addressBus) (by simp)
  have hwrite := h.read (w := .cpu .writeEnable) (by simp)
  have hdata := h.read (w := .cpu .dataOut) (by simp)
  have hpage : (Term.extract 15 12 (inp.term Variable.addressBus.name)).Evaluable Γ (.bits 4) :=
    .extract (by decide) (by decide) (by decide) hbus
  have hsatTerms : ∀ t ∈ assertedTerms f, I.Holds t := fun t ht => hsat t (mem_assertedTerms.1 ht)
  rw [hterms, List.forall_mem_map] at hsatTerms
  rw [hterms, hwritten]
  refine .assignments h.fits (fun w hw => ?_) (fun w hw => ?_) hsatTerms
  · rw [← kind_of_mem_frontWires bits hw]
    exact h.declared w hw
  · obtain ⟨page, hw⟩ := (mem_frontWires_iff w).1 hw
    simp only [Wire.inputs, List.mem_cons, List.not_mem_nil, or_false] at hw
    rcases hw with rfl | rfl | rfl | rfl
    · exact .ite (hpage.eq (.word (by decide) (by decide) page.isLt)) (.bit true) (.bit false)
    · exact hbus
    · exact hwrite
    · exact hdata

/-- The back half gives the byte on the data bus the answer of a page that is selected. -/
theorem assertedTerms_backHalf {f : Formula} (hf : (backHalf pageSlots).generate
    (.of (backWires.map Wire.name) ρ) (.of ([Wire.cpu .dataIn].map Wire.name) ω) = .ok f) :
    assertedTerms f = (List.finRange 16).map fun page =>
      .implies (.eq ((Binding.of (backWires.map Wire.name) ρ).term (Wire.select page).name)
          (.bit true))
        (.eq (.symbol (ω Variable.dataIn.name))
          ((Binding.of (backWires.map Wire.name) ρ).term (Wire.answer page).name)) := by
  have hout : (Binding.of ([Wire.cpu .dataIn].map Wire.name) ω).symbol Variable.dataIn.name =
      ω Variable.dataIn.name := symbol_write [.cpu .dataIn] (.cpu .dataIn) (by simp)
  cases hf
  rw [assertedTerms_note, declare, assertedTerms_declareBits, assertedTerms_map_assert, pageSlots,
    List.map_map, hout]
  rfl

/-- The back half determines the byte on the data bus, if a page is selected. -/
theorem forward_backHalf (bits : Nat) : Forward bits (backHalf pageSlots) backWires [.cpu .dataIn]
    (fun e => ∃ page : Fin 16, e (Wire.select page).name = .bits 1 1) := by
  refine ⟨reads_backHalf, rfl, fun _ _ => rfl, fun {sig I Γ ρ ω f} h hf hsat hG => ?_⟩
  obtain ⟨selected, hselected⟩ := hG
  have hsatTerms : ∀ t ∈ assertedTerms f, I.Holds t := fun t ht => hsat t (mem_assertedTerms.1 ht)
  have hdeclared := h.declared (.cpu .dataIn) (by simp)
  rw [assertedTerms_backHalf hf] at hsatTerms ⊢
  refine .implications h.fits (fun _ _ => Or.inl) (fun t ht => ?_) ?_
  · have hholds := hsatTerms t ht
    obtain ⟨page, -, rfl⟩ := List.mem_map.1 ht
    refine ⟨_, _, rfl, (h.read (select_mem_backWires page)).eq (.bit true), fun hante => ?_⟩
    have hcons := I.holds_implies.1 hholds hante
    have hagain := Determines.assigned h.fits hdeclared
      ((h.read (answer_mem_backWires page)).extend (written bits ω [.cpu .dataIn])) hcons
    refine ⟨.assigned h.fits hdeclared (h.read (answer_mem_backWires page)) hcons, ?_⟩
    exact (Γ.extend_self (written bits ω [.cpu .dataIn])).subst (motive := fun Θ =>
      Determines sig I (Γ.extend (written bits ω [.cpu .dataIn])) _ Θ) hagain
  · refine ⟨_, _, List.mem_map_of_mem (List.mem_finRange selected), ?_⟩
    exact (holds_bit ((denote_read _ _ (select_mem_backWires selected)).trans hselected)).2 rfl

end Placed

end CycleCheck.Cycle
