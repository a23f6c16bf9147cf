import CycleCheck.Proofs.Cycle.Determined

/-!
Machines whose formulas propagate. With known registers and a full RAM at power on, the assertions
of power on and of any number of cycles can be settled in their order, as long as every cycle has a
transition; at the end all versions of all variables are known.
-/

namespace CycleCheck

namespace Timeline

variable {t t' t'' : Timeline} {bs bs' : List Block} {fs fs' : List Formula}

theorem Yields.of_append (h : t.Yields (bs ++ bs') fs t'') :
    ∃ fs₁ fs₂ t', fs = fs₁ ++ fs₂ ∧ t.Yields bs fs₁ t' ∧ t'.Yields bs' fs₂ t'' := by
  induction bs generalizing t fs with
  | nil => exact ⟨[], fs, t, rfl, .nil, h⟩
  | cons b rest ih =>
    cases h with
    | cons first hrest =>
      obtain ⟨fs₁, fs₂, t', rfl, h₁, h₂⟩ := ih hrest
      exact ⟨_ :: fs₁, fs₂, t', rfl, .cons first h₁, h₂⟩

theorem Yields.eq_advance {b : Block} (h : t.Yields [b] fs t') (keeps : b.Keeps) :
    t' = t.advance b.writes := by
  cases h with
  | cons first rest =>
    cases rest
    exact advance_of_apply keeps first

theorem scope_advance_nil {κ : String → Kind} : (t.advance []).scope κ = t.scope κ := by
  funext y k
  exact propext (scope_advance.trans (by simp))

/-- What was given out stays in scope. -/
theorem Yields.scope_mono {κ : String → Kind} (h : t.Yields bs fs t') {y : String} {k : Kind}
    (hy : t.scope κ y k) : t'.scope κ y k := by
  induction h with
  | nil => exact hy
  | cons first _ ih =>
    obtain ⟨-, rfl, -⟩ := generate_of_apply first
    exact ih (scope_advance.2 (.inl hy))

end Timeline

namespace Cycle

open Processor Memory Propagation

variable {bits : Nat} {sig : Signature} {I : Interpretation} {t t' : Timeline}

/-! ## Blocks in order -/

/-- The versions of a timeline after a block. -/
theorem scope_of_apply (bits : Nat) {b : Block} {f : Formula} {ws : List Wire}
    (writes : b.writes = ws.map Wire.name) (keeps : b.Keeps) (h : t.apply b = .ok (f, t')) :
    t'.scope (kindOf bits) = (t.scope (kindOf bits)).extend (written bits t.fresh ws) := by
  obtain rfl := Timeline.advance_of_apply keeps h
  funext y k
  refine propext (Timeline.scope_advance.trans (or_congr_right ?_))
  simp [writes, written, kindOf_name, eq_comm]

/-- A block that determines what it writes, applied to a timeline of known versions. -/
theorem determines_of_apply {b : Block} {f : Formula} {rs ws : List Wire} {G : Valuation → Prop}
    (hb : Forward bits b rs ws G) (h : t.apply b = .ok (f, t'))
    (fits : I.Fits sig) (hsig : ∀ y k, t'.scope (kindOf bits) y k → (y, k) ∈ sig)
    (hsat : I.Satisfies f) (hG : G fun x => I (t.latest x).name) :
    Determines sig I (t.scope (kindOf bits)) (assertedTerms f) (t'.scope (kindOf bits)) := by
  obtain ⟨hgen, -, hreads⟩ := Timeline.generate_of_apply h
  have hscope := scope_of_apply bits hb.writes hb.keeps h
  rw [hb.reads, hb.writes] at hgen
  rw [hscope] at hsig ⊢
  refine hb.determines ⟨fits, fun w hw => ?_, fun w hw => ?_, fun w hw => ?_⟩ hgen hsat hG
  · have hlatest := Timeline.scope_latest (κ := kindOf bits)
      (hreads w.name (hb.reads ▸ List.mem_map_of_mem hw))
    rwa [kindOf_name] at hlatest
  · exact hsig _ _ (.inr (List.mem_map_of_mem hw))
  · exact fun k => Timeline.not_scope_fresh w.name k

/-- The commands of blocks that start at a timeline of known versions make all versions known. -/
def Forces (bits : Nat) (sig : Signature) (I : Interpretation) (t : Timeline) (bs : List Block) :
    Prop :=
  ∀ fs t', t.Yields bs fs t' → (∀ y k, t'.scope (kindOf bits) y k → (y, k) ∈ sig) →
    (∀ f ∈ fs, I.Satisfies f) →
      Determines sig I (t.scope (kindOf bits)) (assertedTerms fs.flatten) (t'.scope (kindOf bits))

theorem Forces.nil : Forces bits sig I t [] := by
  intro fs t' h _ _
  cases h
  exact .nil

theorem Forces.append {bs bs' : List Block} (h : Forces bits sig I t bs)
    (h' : ∀ fs t', t.Yields bs fs t' → Forces bits sig I t' bs') :
    Forces bits sig I t (bs ++ bs') := by
  intro fs t'' hyields hsig hsat
  obtain ⟨fs₁, fs₂, t', rfl, h₁, h₂⟩ := hyields.of_append
  obtain ⟨hsat₁, hsat₂⟩ := List.forall_mem_append.1 hsat
  rw [List.flatten_append, assertedTerms_append]
  exact (h fs₁ t' h₁ (fun y k hy => hsig y k (h₂.scope_mono hy)) hsat₁).append
    (h' fs₁ t' h₁ fs₂ t'' h₂ hsig hsat₂)

theorem Forces.block {b : Block} {rs ws : List Wire} {G : Valuation → Prop}
    (hb : Forward bits b rs ws G) (fits : I.Fits sig) (hG : G fun x => I (t.latest x).name) :
    Forces bits sig I t [b] := by
  intro fs t' h hsig hsat
  cases h with
  | cons first rest =>
    cases rest
    rw [List.flatten_singleton]
    exact determines_of_apply hb first fits hsig (hsat _ List.mem_cons_self) hG

theorem Forces.blocks {bs : List Block}
    (hbs : ∀ b ∈ bs, ∃ rs ws, Forward bits b rs ws (fun _ => True)) (fits : I.Fits sig) :
    Forces bits sig I t bs := by
  induction bs generalizing t with
  | nil => exact .nil
  | cons b rest ih =>
    obtain ⟨⟨rs, ws, hb⟩, hrest⟩ := List.forall_mem_cons.1 hbs
    have hfirst : Forces bits sig I t [b] := Forces.block hb fits trivial
    exact hfirst.append fun fs t' h => ih hrest

/-! ## A phase and a cycle -/

variable {rom : Cartridge.Rom} {sys sys' : Machine} {k : Nat}

/-- The handlers of a machine determine what they write. -/
def ForwardHandlers (bits : Nat) (sys : Machine) : Prop :=
  ∀ h ∈ sys.handlers, ∃ rs ws, Forward bits h.block rs ws (fun _ => True)

theorem exists_selected {c : Cpu} (h : ∀ page, PageInputs (version I k) c page) :
    ∃ page : Fin 16, version I k (Wire.select page).name = .bits 1 1 := by
  have hlt : c.page < 16 := by
    unfold Cpu.page
    omega
  refine ⟨⟨c.page, hlt⟩, (h ⟨c.page, hlt⟩).select.trans ?_⟩
  rw [selects_eq_one.2 rfl]

theorem forces_phase (hsys : Built rom sys) (hhandlers : ForwardHandlers bits sys)
    (ht : At t (Wire.count k false 0 false)) (fits : I.Fits sig) {c : Cpu}
    (hinputs : ∀ page, PageInputs (version I k) c page) : Forces bits sig I t sys.busPhase := by
  obtain ⟨pages, hpages, hserves⟩ := hsys.handlers
  have hslots := slots_eq hpages hserves
  have hblocks : sys.busPhase = [frontHalf pageSlots] ++ sys.handlers.map PageHandler.block ++
      [backHalf pageSlots] := by
    rw [Machine.busPhase, hslots]
    rfl
  rw [hblocks]
  refine Forces.append (Forces.append ?_ fun fs t₁ h => ?_) fun fs t₂ h => ?_
  · exact .block (forward_frontHalf bits) fits trivial
  · refine .blocks (fun b hb => ?_) fits
    obtain ⟨handler, hmem, rfl⟩ := List.mem_map.1 hb
    exact hhandlers handler hmem
  · -- the versions before the back half are those after all handlers
    have hmap : sys.handlers.map PageHandler.block =
        (List.finRange 16).map fun page => (pages page).block := by
      rw [hpages, List.map_map]
      rfl
    rw [hmap] at h
    have ht' := (during_of_yields hserves (sources_pos ht) h).at ht
    obtain ⟨page, hpage⟩ := exists_selected hinputs
    exact .block (forward_backHalf bits) fits ⟨page, (ht'.latest I (.select page)).trans hpage⟩

theorem forces_cycle (hsys : Built rom sys) (hhandlers : ForwardHandlers bits sys)
    (ht : At t (Wire.count k true 16 true)) (fits : I.Fits sig) {m m' : Cells} {s s' : State}
    (hs : Shows rom k m s I) (hs' : Shows rom (k + 1) m' s' I)
    (hnext : (s.cpu.next? s.dataIn).isSome) :
    Forces bits sig I t (sys.processor.cycle :: sys.busPhase) := by
  rw [hsys.processor]
  rw [← List.singleton_append]
  refine Forces.append ?_ fun fs t₁ h => ?_
  · refine .block (forward_cycle bits) fits ⟨s.cpu, s.dataIn, fun v => ?_, hnext⟩
    have hcount : (Wire.cpu v).count k true 16 true = k + 1 := by cases v <;> simp [Wire.count]
    have hlatest := ht.latest I (.cpu v)
    rw [hcount] at hlatest
    exact hlatest.trans (hs.values v)
  · obtain ⟨fs', hyields, -⟩ := cycle_compiles rom ht
    obtain ⟨-, rfl⟩ := h.functional hyields
    exact forces_phase hsys hhandlers (cycle_at ht) fits hs'.inputs

/-! ## Power on -/

/-- RAM is declared and then all its bytes are supplied. -/
theorem forces_contents {data : ByteArray} (hdata : data.size = ramSize) {b : Block}
    (hb : Ram.contents 0 data = .ok b) (fits : I.Fits sig) :
    Forces bits sig I t [Ram.powerOn, b] := by
  intro fs t₂ h hsig hsat
  obtain ⟨b', hb', hreads, hwrites, hsays⟩ := exists_contents (Nat.le_of_eq hdata)
  cases hb.symm.trans hb'
  cases h with
  | @cons _ t₁ _ _ _ f₁ _ first rest =>
    cases rest with
    | @cons _ _ _ _ _ f₂ _ second rest =>
      cases rest
      have hkeeps₁ : Ram.powerOn.Keeps := fun _ _ => rfl
      obtain ⟨hgen₁, -⟩ := Timeline.generate_of_apply first
      obtain ⟨hgen₂, -⟩ := Timeline.generate_of_apply second
      obtain rfl := Timeline.advance_of_apply hkeeps₁ first
      obtain rfl := Timeline.advance_of_apply hsays.keeps second
      have hlatest : (t.advance Ram.powerOn.writes).latest Wire.ram.name = t.fresh Wire.ram.name :=
        Timeline.latest_advance List.mem_cons_self
      have hwrites₁ : Ram.powerOn.writes = [Wire.ram].map Wire.name := rfl
      have hscope := scope_of_apply bits hwrites₁ hkeeps₁ first
      have hquiet : assertedTerms f₁ = [] := by
        cases hgen₁
        rfl
      rw [hwrites, Timeline.scope_advance_nil, hscope] at hsig ⊢
      rw [hreads, hwrites] at hgen₂
      rw [List.flatten_cons, List.flatten_singleton, assertedTerms_append, hquiet, List.nil_append]
      have hmain := determines_contents (Γ := t.scope (kindOf bits)) hdata hb hgen₂ fits
        (by rw [hlatest]; exact hsig _ _ (.inr List.mem_cons_self))
        (by rw [hlatest]; exact fun k => Timeline.not_scope_fresh _ k)
        (hsat f₂ (List.mem_cons_of_mem _ List.mem_cons_self))
      rwa [hlatest] at hmain

/-- The blocks of power on with known registers and a full RAM. -/
theorem forces_powerOn (hsys : Built rom sys) (hhandlers : ForwardHandlers sys.mapper.addressBits sys)
    (r : Registers) {data : ByteArray} (hdata : data.size = ramSize) {b : Block}
    (hb : Ram.contents 0 data = .ok b) (fits : I.Fits sig) {c : Cpu}
    (hinputs : ∀ page, PageInputs (version I 0) c page) :
    Forces sys.mapper.addressBits sig I {} ([Processor.standard.powerOn (some r)] ++
      [Ram.powerOn, b] ++ [sys.mapper.initialiser] ++ sys.busPhase) := by
  obtain ⟨b', hb', -, hwrites, hsays⟩ := exists_contents (Nat.le_of_eq hdata)
  cases hb.symm.trans hb'
  refine Forces.append (Forces.append (Forces.append ?_ fun fs t₁ h₁ => ?_) fun fs t₂ h₂ => ?_)
    fun fs t₃ h₃ => ?_
  · exact .block (forward_powerOn _ r) fits trivial
  · exact forces_contents hdata hb fits
  · exact .block (forward_initialiser hsys.mapper) fits trivial
  · obtain ⟨fs₁, fs₂, t₂, -, h₂, hprg⟩ := h₃.of_append
    obtain ⟨fs₃, fs₄, t₁, -, hcpu, hram⟩ := h₂.of_append
    have hat₁ := at_once at_empty (Variable.outputs.map .cpu) (by simp)
    rw [List.append_nil] at hat₁
    have hat₂ := at_once hat₁ [.ram] (by simp)
    have hat₃ := at_once hat₂ [.prg] (by simp)
    obtain rfl := hprg.eq_advance fun _ _ => rfl
    obtain rfl := hcpu.eq_advance fun _ _ => rfl
    have hsame : At t₂ (once ([.ram] ++ Variable.outputs.map .cpu)) := by
      cases hram with
      | cons first rest =>
        obtain rfl := Timeline.advance_of_apply (fun _ _ => rfl) first
        rw [rest.eq_advance hsays.keeps, hwrites]
        exact At.advance hat₂ [] (by simp)
    refine forces_phase hsys hhandlers (k := 0) (fun w => ?_) fits hinputs
    exact (at_once hsame [.prg] (by simp) w).trans (count_zero w).symm

/-! ## Machines -/

/-- The assertions of a machine can be settled in order, and make all versions known. -/
def Settles (bits : Nat) (sig : Signature) (I : Interpretation) (sys : Machine) : Prop :=
  Determines sig I (fun _ _ => False) (assertedTerms sys.formula) (sys.timeline.scope (kindOf bits))

theorem Settles.applied (h : Settles bits sig I sys) {bs : List Block} {fs : List Formula}
    (happlied : sys.Applied bs fs sys') (hforces : Forces bits sig I sys.timeline bs)
    (hsig : ∀ y k, sys'.timeline.scope (kindOf bits) y k → (y, k) ∈ sig)
    (hsat : I.Satisfies sys'.formula) : Settles bits sig I sys' := by
  rw [happlied.formula_eq, Interpretation.satisfies_append] at hsat
  unfold Settles
  rw [happlied.formula_eq, assertedTerms_append]
  exact h.append (hforces fs _ happlied.yields hsig (Interpretation.satisfies_flatten.1 hsat.2))

theorem forwardHandlers_of_ofRom {options : MachineOptions} {log : Log}
    (h : Machine.ofRom rom options log = .ok sys) :
    ForwardHandlers sys.mapper.addressBits sys := by
  intro handler hmem
  obtain ⟨page, hpage⟩ := exists_handlerOf_eq_of_mem h hmem
  exact forward_handlerOf (assembled_of_ofRom h).mapper hpage

/-- The assertions of power on with known registers and a full RAM. -/
theorem settles_powerOn {options : MachineOptions} (hsys : Assembled rom options sys)
    (hhandlers : ForwardHandlers sys.mapper.addressBits sys) {r : Registers} {data : ByteArray}
    (hregisters : options.registers = some r) (hram : options.ram = some data)
    (hdata : data.size = ramSize) (hpower : sys.powerOn = (sys', .ok ())) (fits : I.Fits sig)
    (hsig : ∀ y k, sys'.timeline.scope (kindOf sys.mapper.addressBits) y k → (y, k) ∈ sig)
    (hsat : I.Satisfies sys'.formula) {c : Cpu}
    (hinputs : ∀ page, PageInputs (version I 0) c page) :
    Settles sys.mapper.addressBits sig I sys' := by
  obtain ⟨bs, fs, hbs, happlied⟩ := Machine.applied_of_powerOn hpower
  obtain ⟨contents, hcontents, rfl⟩ := powerOnBlocks_eq hbs
  obtain ⟨b, hb, -⟩ := exists_contents (Nat.le_of_eq hdata)
  rw [hsys.options, hram, bytesBlocks, hb] at hcontents
  cases hcontents
  have hforces := forces_powerOn hsys.toBuilt hhandlers r hdata hb fits hinputs
  have hstart : Settles sys.mapper.addressBits sig I sys := by
    have hquiet : assertedTerms sys.formula = [] := by
      rw [Machine.formula_eq, hsys.fragments]
      rfl
    have hscope : sys.timeline.scope (kindOf sys.mapper.addressBits) = fun _ _ => False := by
      funext y k
      rw [hsys.timeline]
      exact propext (iff_of_false (Timeline.scope_empty y k) id)
    rw [Settles, hquiet, hscope]
    exact .nil
  refine hstart.applied happlied ?_ hsig hsat
  rw [hsys.timeline, hsys.processor, hsys.options, hregisters]
  simpa using hforces

/-- The assertions of any number of cycles, each of which has a transition. -/
theorem settles_run {k n : Nat} (trace : Nat → State) (hsys : Running rom k sys)
    (hhandlers : ForwardHandlers bits sys) (hsettles : Settles bits sig I sys)
    (hrun : sys.run n = (sys', .ok ())) (fits : I.Fits sig)
    (hsig : ∀ y k, sys'.timeline.scope (kindOf bits) y k → (y, k) ∈ sig)
    (hsat : I.Satisfies sys'.formula)
    (hshows : ∀ j ≤ n, Shows rom (k + j) (trace (k + j - 1)).ram (trace (k + j)) I)
    (hnext : ∀ j < n, ((trace (k + j)).cpu.next? (trace (k + j)).dataIn).isSome) :
    Settles bits sig I sys' := by
  induction n generalizing k sys with
  | zero =>
    cases hrun
    exact hsettles
  | succ n ih =>
    obtain ⟨sys₁, hstep, hrunning, -⟩ := exists_step hsys
    rw [Machine.run, hstep] at hrun
    obtain ⟨fs, happlied⟩ := Machine.applied_of_step hstep
    obtain ⟨bs, fs', happlied'⟩ := Machine.applied_of_run hrun
    have hsat₁ : I.Satisfies sys₁.formula := by
      rw [happlied'.formula_eq, Interpretation.satisfies_append] at hsat
      exact hsat.1
    have hforces := forces_cycle hsys.toBuilt hhandlers hsys.timeline fits
      (hshows 0 (Nat.zero_le _)) (hshows 1 (by omega)) (hnext 0 (Nat.succ_pos n))
    have hsettles₁ := hsettles.applied happlied hforces
      (fun y k hy => hsig y k (happlied'.yields.scope_mono hy)) hsat₁
    refine ih hrunning ?_ hsettles₁ hrun (fun j hj => ?_) fun j hj => ?_
    · rw [ForwardHandlers, happlied.handlers]
      exact hhandlers
    · have hshow := hshows (j + 1) (by omega)
      rwa [show k + (j + 1) = k + 1 + j by omega] at hshow
    · have hsome := hnext (j + 1) (by omega)
      rwa [show k + (j + 1) = k + 1 + j by omega] at hsome

end Cycle

end CycleCheck
