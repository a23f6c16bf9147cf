import CycleCheck.Proofs.Cycle.Sorts

/-!
Formulas of machines are well formed: each symbol is declared once, and each assertion is a boolean
term over what is declared before it.
-/

namespace CycleCheck

namespace Machine

variable {sys sys' sys'' : Machine} {bs bs' : List Block} {fs fs' : List Formula}

/-- The commands of blocks that a machine has applied. -/
structure Applied (sys : Machine) (bs : List Block) (fs : List Formula) (sys' : Machine) :
    Prop where
  yields : sys.timeline.Yields bs fs sys'.timeline
  fragments : sys'.fragments = fs.reverse ++ sys.fragments
  handlers : sys'.handlers = sys.handlers

theorem Applied.formula_eq (h : sys.Applied bs fs sys') :
    sys'.formula = sys.formula ++ fs.flatten := by
  rw [Machine.formula_eq, Machine.formula_eq, h.fragments, List.reverse_append,
    List.reverse_reverse, List.flatten_append, List.cons_append]

theorem Applied.trans (h : sys.Applied bs fs sys') (h' : sys'.Applied bs' fs' sys'') :
    sys.Applied (bs ++ bs') (fs ++ fs') sys'' where
  yields := h.yields.append h'.yields
  fragments := by rw [h'.fragments, h.fragments, List.reverse_append, List.append_assoc]
  handlers := h'.handlers.trans h.handlers

theorem applied_of_applyBlocks (h : sys.applyBlocks bs = (sys', .ok ())) :
    ∃ fs, sys.Applied bs fs sys' := by
  induction bs generalizing sys with
  | nil =>
    cases h
    exact ⟨[], .nil, rfl, rfl⟩
  | cons b rest ih =>
    rw [applyBlocks] at h
    split at h
    · cases h
    · next f t hb =>
      obtain ⟨fs, hyields, hfragments, hhandlers⟩ := ih h
      refine ⟨f :: fs, .cons hb hyields, ?_, hhandlers⟩
      rw [hfragments, List.reverse_cons, List.append_assoc]
      rfl

theorem applied_of_apply {label : String} (h : sys.apply label bs = (sys', .ok ())) :
    ∃ fs, sys.Applied bs fs sys' := by
  rw [apply] at h
  split at h
  · cases h
  · next sys₁ hblocks =>
    cases h
    obtain ⟨fs, happlied⟩ := applied_of_applyBlocks hblocks
    exact ⟨fs, happlied.yields, happlied.fragments, happlied.handlers⟩

theorem applied_of_powerOn (h : sys.powerOn = (sys', .ok ())) :
    ∃ bs fs, sys.powerOnBlocks = .ok bs ∧ sys.Applied bs fs sys' := by
  rw [powerOn] at h
  split_ifs at h
  · cases h
  · split at h
    · cases h
    · next bs hbs =>
      split at h
      · cases h
      · next sys₁ happly =>
        cases h
        obtain ⟨fs, happlied⟩ := applied_of_apply happly
        exact ⟨bs, fs, hbs, happlied.yields, happlied.fragments, happlied.handlers⟩

theorem applied_of_step (h : sys.step = (sys', .ok ())) :
    ∃ fs, sys.Applied (sys.processor.cycle :: sys.busPhase) fs sys' := by
  rw [step] at h
  split_ifs at h
  · cases h
  · split at h
    · cases h
    · next sys₁ happly =>
      cases h
      obtain ⟨fs, happlied⟩ := applied_of_apply happly
      exact ⟨fs, happlied.yields, happlied.fragments, happlied.handlers⟩

theorem applied_of_run {n : Nat} (h : sys.run n = (sys', .ok ())) :
    ∃ bs fs, sys.Applied bs fs sys' := by
  induction n generalizing sys with
  | zero =>
    cases h
    exact ⟨[], [], .nil, rfl, rfl⟩
  | succ n ih =>
    rw [run] at h
    split at h
    · cases h
    · next sys₁ hstep =>
      obtain ⟨fs, hfirst⟩ := applied_of_step hstep
      obtain ⟨bs, fs', hrest⟩ := ih h
      exact ⟨_, _, hfirst.trans hrest⟩

end Machine

namespace Cycle

open Processor Memory

/-- A machine whose handlers are sorted, and whose formula declares what its timeline gave out. -/
structure Accounted (bits : Nat) (sys : Machine) : Prop where
  handlers : ∀ h ∈ sys.handlers, h.block.Sorted (kindOf bits) ∧ h.block.writes.Nodup
  commands : Timeline.Extends (kindOf bits) {} sys.fragments.reverse.flatten sys.timeline

variable {bits : Nat} {rom : Cartridge.Rom} {sys sys' : Machine}

theorem Accounted.applied (h : Accounted bits sys) {bs : List Block} {fs : List Formula}
    (happlied : sys.Applied bs fs sys')
    (hbs : ∀ b ∈ bs, b.Sorted (kindOf bits) ∧ b.writes.Nodup) : Accounted bits sys' := by
  refine ⟨happlied.handlers ▸ h.handlers, ?_⟩
  rw [happlied.fragments, List.reverse_append, List.reverse_reverse, List.flatten_append]
  exact h.commands.append (happlied.yields.extends hbs)

theorem nodup_of_wires {names : List String} {ws : List Wire} (hnames : names = ws.map Wire.name)
    (hws : ws.Nodup) : names.Nodup :=
  hnames ▸ hws.map Wire.name_injective

theorem sorted_busPhase (hsys : Built rom sys) (h : Accounted bits sys) :
    ∀ b ∈ sys.busPhase, b.Sorted (kindOf bits) ∧ b.writes.Nodup := by
  obtain ⟨pages, hpages, hserves⟩ := hsys.handlers
  have hfront : frontWires.Nodup := by decide +kernel
  rw [Machine.busPhase, slots_eq hpages hserves, List.cons_append, List.forall_mem_cons,
    List.forall_mem_append, List.forall_mem_map, List.forall_mem_singleton]
  exact ⟨⟨sorted_frontHalf bits, nodup_of_wires writes_frontHalf hfront⟩, h.handlers,
    sorted_backHalf bits, List.nodup_singleton _⟩

theorem nodup_outputs : (Variable.outputs.map Variable.name).Nodup := by decide +kernel

theorem Accounted.step (hsys : Built rom sys) (h : Accounted bits sys)
    (hstep : sys.step = (sys', .ok ())) : Accounted bits sys' := by
  obtain ⟨fs, happlied⟩ := Machine.applied_of_step hstep
  refine h.applied happlied (List.forall_mem_cons.2 ⟨?_, sorted_busPhase hsys h⟩)
  rw [hsys.processor]
  exact ⟨sorted_cycle bits, nodup_outputs⟩

theorem Accounted.run {k n : Nat} (hsys : Running rom k sys) (h : Accounted bits sys)
    (hrun : sys.run n = (sys', .ok ())) : Accounted bits sys' := by
  induction n generalizing k sys with
  | zero =>
    cases hrun
    exact h
  | succ n ih =>
    obtain ⟨sys₁, hstep, hrunning, -⟩ := exists_step hsys
    rw [Machine.run, hstep] at hrun
    exact ih hrunning (h.step hsys.toBuilt hstep) hrun

/-- The blocks of power on, in order. -/
theorem powerOnBlocks_eq {bs : List Block} (hbs : sys.powerOnBlocks = .ok bs) :
    ∃ contents, bytesBlocks sys.options.ram = .ok contents ∧
      bs = sys.processor.powerOn sys.options.registers :: Ram.powerOn :: contents ++
        sys.mapper.initialiser :: sys.busPhase := by
  rw [powerOnBlocks_eq_bind] at hbs
  obtain ⟨contents, hcontents, hbs⟩ := Propagation.exists_ok_of_bind hbs
  exact ⟨contents, hcontents, (Except.ok.inj hbs).symm⟩

theorem sorted_bytesBlocks {ram : Option ByteArray} {contents : List Block}
    (h : bytesBlocks ram = .ok contents) :
    ∀ b ∈ contents, b.Sorted (kindOf bits) ∧ b.writes.Nodup := by
  unfold bytesBlocks at h
  split at h
  · cases h
    simp
  · next data =>
    cases hb : Ram.contents 0 data with
    | error e =>
      rw [hb] at h
      cases h
    | ok b =>
      rw [hb] at h
      cases h
      rw [List.forall_mem_singleton]
      exact sorted_contents bits hb

theorem Accounted.powerOn (hsys : Built rom sys) (h : Accounted sys.mapper.addressBits sys)
    (hpower : sys.powerOn = (sys', .ok ())) : Accounted sys.mapper.addressBits sys' := by
  obtain ⟨bs, fs, hbs, happlied⟩ := Machine.applied_of_powerOn hpower
  obtain ⟨contents, hcontents, rfl⟩ := powerOnBlocks_eq hbs
  refine h.applied happlied ?_
  rw [hsys.processor, List.forall_mem_append, List.forall_mem_cons, List.forall_mem_cons,
    List.forall_mem_cons]
  exact ⟨⟨⟨sorted_powerOn _ _, nodup_outputs⟩, ⟨sorted_ramPowerOn _, List.nodup_singleton _⟩,
    sorted_bytesBlocks hcontents⟩, ⟨sorted_initialiser hsys.mapper, List.nodup_singleton _⟩,
    sorted_busPhase hsys h⟩

theorem accounted_of_ofRom {options : MachineOptions} {log : Log}
    (h : Machine.ofRom rom options log = .ok sys) : Accounted sys.mapper.addressBits sys := by
  have hassembled := assembled_of_ofRom h
  refine ⟨fun handler hmem => ?_, ?_⟩
  · obtain ⟨page, hpage⟩ := exists_handlerOf_eq_of_mem h hmem
    exact sorted_handlerOf hassembled.mapper hpage
  · rw [hassembled.fragments, hassembled.timeline]
    exact .nil

/-- What the timeline of a machine gave out is declared by its formula. -/
theorem Accounted.scope_iff (h : Accounted bits sys) (y : String) (k : Kind) :
    sys.timeline.scope (kindOf bits) y k ↔ (y, k) ∈ sys.formula.signature := by
  rw [h.commands.scope, Machine.formula_eq]
  exact or_iff_right (Timeline.scope_empty y k)

theorem Accounted.sorted_formula (h : Accounted bits sys) :
    sys.formula.Sorted fun _ _ => False := by
  rw [Machine.formula_eq]
  refine ⟨by simp, h.commands.sorted.mono fun y k hy => ?_⟩
  exact absurd hy (Timeline.scope_empty y k)

theorem Accounted.unique_formula (h : Accounted bits sys) :
    (sys.formula.signature.map Prod.fst).Nodup := by
  rw [Machine.formula_eq]
  exact h.commands.unique

theorem Accounted.wellFormed (h : Accounted bits sys) : sys.formula.WellFormed :=
  h.sorted_formula.wellFormed h.unique_formula

/-- Power on and any number of cycles succeed, and the formula after them is well formed. -/
theorem wellFormed_formula {options : MachineOptions} {log : Log}
    (hsys : Machine.ofRom rom options log = .ok sys)
    (hsize : ∀ data, options.ram = some data → data.size ≤ ramSize) (n : Nat) :
    ∃ sys₀ sysₙ, sys.powerOn = (sys₀, .ok ()) ∧ sys₀.run n = (sysₙ, .ok ()) ∧
      sysₙ.formula.WellFormed := by
  have hassembled := assembled_of_ofRom hsys
  obtain ⟨sys₀, hpower, hrunning, -⟩ := exists_powerOn hassembled hsize
  obtain ⟨sysₙ, hrun, -, -⟩ := exists_run n hrunning
  have hstart := (accounted_of_ofRom hsys).powerOn hassembled.toBuilt hpower
  exact ⟨sys₀, sysₙ, hpower, hrun, (hstart.run hrunning hrun).wellFormed⟩

/-- Two banks and a full RAM of unknown registers, for a thousand cycles. -/
theorem wellFormed_formula_banks : ∃ sys sys₀ sysₙ,
    Machine.ofRom ⟨"", 0, Bytes.zeros 32768⟩ { ram := some (Bytes.zeros 2048) } = .ok sys ∧
    sys.powerOn = (sys₀, .ok ()) ∧ sys₀.run 1000 = (sysₙ, .ok ()) ∧ sysₙ.formula.WellFormed := by
  have hsize : (Bytes.zeros 32768).size = 2 * Cartridge.bankSize := Array.size_replicate
  have hm : Cartridge.Mapper.ofRom ⟨"", 0, Bytes.zeros 32768⟩ =
      .ok ⟨⟨"", 0, Bytes.zeros 32768⟩, 15⟩ := by
    rw [Cartridge.Mapper.ofRom, if_neg (by simp), if_neg (by simp [hsize, Cartridge.bankSize]),
      if_pos hsize]
  obtain ⟨sys, hsys, -⟩ := exists_ofRom hm { ram := some (Bytes.zeros 2048) } .central
  have hram : (Bytes.zeros 2048).size = ramSize := Array.size_replicate
  obtain ⟨sys₀, sysₙ, hpower, hrun, hformula⟩ := wellFormed_formula hsys
    (by rintro _ ⟨⟩; exact Nat.le_of_eq hram) 1000
  exact ⟨sys, sys₀, sysₙ, hsys, hpower, hrun, hformula⟩

end Cycle

end CycleCheck
