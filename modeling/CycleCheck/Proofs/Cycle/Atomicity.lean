import CycleCheck.Proofs.Cycle.FlatMemory

/-!
Operations on machines. Power on and a cycle apply many blocks one after another and undo nothing,
but no block after the first check can fail: each generates commands from any symbols, and what it
reads is written by the blocks before it. So an operation that fails leaves the machine as it was,
whatever blocks were applied in between.
-/

namespace CycleCheck

/-! ## Operations -/

/-- What is done with a machine. -/
inductive Operation where
  | powerOn
  | step
  | run (cycles : Int)
  | reset
  | symbol (name : String)
  | apply (b : Block)

namespace Machine

def perform (sys : Machine) : Operation → Machine × Except MachineError Unit
  | .powerOn => sys.powerOn
  | .step => sys.step
  | .run cycles => sys.run cycles.toNat
  | .reset => sys.reset
  | .symbol name => (sys, (sys.symbol name).map fun _ => ())
  | .apply b => sys.applyBlock b

/-- The machine after operations, those that failed included. -/
def performAll (sys : Machine) (ops : List Operation) : Machine :=
  ops.foldl (fun s op => (s.perform op).1) sys

theorem performAll_concat (sys : Machine) (ops : List Operation) (op : Operation) :
    sys.performAll (ops ++ [op]) = ((sys.performAll ops).perform op).1 := by
  rw [performAll, List.foldl_append]
  rfl

/-- Power on has succeeded among some operations. -/
def PoweredBy (sys : Machine) (ops : List Operation) : Prop :=
  ∃ before after, ops = before ++ .powerOn :: after ∧
    (sys.performAll before).powerOn.2 = .ok ()

theorem poweredBy_concat {sys : Machine} {ops : List Operation} {op : Operation} :
    sys.PoweredBy (ops ++ [op]) ↔
      sys.PoweredBy ops ∨ op = .powerOn ∧ (sys.performAll ops).powerOn.2 = .ok () := by
  constructor
  · rintro ⟨before, after, hops, hpower⟩
    rcases List.eq_nil_or_concat after with rfl | ⟨after, last, rfl⟩
    · obtain ⟨rfl, hop⟩ := List.append_inj' hops rfl
      exact .inr ⟨List.singleton_inj.1 hop, hpower⟩
    · rw [List.concat_eq_append, ← List.cons_append, ← List.append_assoc] at hops
      obtain ⟨rfl, -⟩ := List.append_inj' hops rfl
      exact .inl ⟨before, after, rfl, hpower⟩
  · rintro (⟨before, after, rfl, hpower⟩ | ⟨rfl, hpower⟩)
    · exact ⟨before, after ++ [op], by simp, hpower⟩
    · exact ⟨ops, [], rfl, hpower⟩

/-- Blocks that yield commands are applied without an error. -/
theorem apply_of_yields {sys : Machine} {bs : List Block} {fs : List Formula} {t : Timeline}
    (h : sys.timeline.Yields bs fs t) (label : String) :
    ∃ fragments size log, sys.apply label bs =
      ({ sys with timeline := t, fragments, size, log }, .ok ()) := by
  obtain ⟨size, hsize⟩ := applyBlocks_eq h
  exact ⟨fs.reverse ++ sys.fragments, size, _, by rw [apply, hsize]⟩

theorem prefix_of_applied {sys sys' : Machine} {bs : List Block} {fs : List Formula}
    (h : sys.Applied bs fs sys') : sys.formula <+: sys'.formula := ⟨fs.flatten, h.formula_eq.symm⟩

end Machine

/-! ## Blocks that do not fail -/

/-- A block that keeps its symbols and generates commands from any of them. -/
structure Block.Total (b : Block) : Prop where
  keeps : b.Keeps
  generates : ∀ ρ ω : String → Symbol, ∃ f, b.generate (.of b.reads ρ) (.of b.writes ω) = .ok f

theorem Block.Says.total {σ : Type} {b : Block} {G : σ → Valuation → Prop}
    {Q : σ → Valuation → Valuation → Prop} (h : b.Says G Q) : b.Total :=
  ⟨h.keeps, fun ρ ω => (h.means ρ ω).imp fun _ hf => hf.1⟩

namespace Cycle

open Processor Memory

/-- Every block reads names that are given or that a block before it writes. -/
def Supplied (names : List String) : List Block → Prop
  | [] => True
  | b :: rest => (∀ x ∈ b.reads, x ∈ names) ∧ Supplied (b.writes ++ names) rest

theorem supplied_of_reads {names : List String} {bs : List Block}
    (h : ∀ b ∈ bs, ∀ x ∈ b.reads, x ∈ names) : Supplied names bs := by
  induction bs generalizing names with
  | nil => trivial
  | cons b rest ih =>
    obtain ⟨hb, hrest⟩ := List.forall_mem_cons.1 h
    exact ⟨hb, ih fun b' hb' x hx => List.mem_append_right _ (hrest b' hb' x hx)⟩

/-- Blocks on wires that are supplied with versions do not fail. -/
theorem Supplied.yields {bs : List Block} (total : ∀ b ∈ bs, Wired b ∧ b.Total)
    {names : List String} (h : Supplied names bs) {t : Timeline} (ht : ∀ x ∈ names, 0 < t.next x) :
    ∃ fs t', t.Yields bs fs t' ∧
      ∀ x, x ∈ names ∨ (∃ b ∈ bs, x ∈ b.writes) → 0 < t'.next x := by
  induction bs generalizing names t with
  | nil => exact ⟨[], t, .nil, fun x hx => ht x (hx.resolve_right (by simp))⟩
  | cons b rest ih =>
    obtain ⟨⟨hwired, htotal⟩, hrest⟩ := List.forall_mem_cons.1 total
    obtain ⟨hreads, hsupplied⟩ := h
    obtain ⟨f, hf⟩ := htotal.generates t.latest t.fresh
    have happly : t.apply b = .ok (f, t.advance b.writes) :=
      Timeline.apply_eq htotal.keeps
        (fun x hx => ⟨isName_of_wires hwired.reads x hx, ht x (hreads x hx)⟩)
        (isName_of_wires hwired.writes) hf
    obtain ⟨fs, t', hyields, hpos⟩ := ih hrest hsupplied fun x hx =>
      Timeline.pos_advance ((List.mem_append.1 hx).imp_right (ht x))
    refine ⟨f :: fs, t', .cons happly hyields, fun x hx => hpos x ?_⟩
    simp only [List.mem_append, List.exists_mem_cons_iff] at hx ⊢
    tauto

/-- Every wire has a version. -/
def Defined (t : Timeline) : Prop := ∀ w : Wire, 0 < t.next w.name

theorem Defined.yields {t t' : Timeline} (ht : Defined t) {bs : List Block} {fs : List Formula}
    (h : t.Yields bs fs t') : Defined t' :=
  fun w => Nat.lt_of_lt_of_le (ht w) (h.next_le w.name)

/-- The bytes for RAM are refused or are one block that reads RAM. -/
theorem bytesBlocks_cases (ram : Option ByteArray) :
    ((∃ data, ram = some data ∧ ramSize < data.size) ∧ ∃ e, bytesBlocks ram = .error e) ∨
    (¬ (∃ data, ram = some data ∧ ramSize < data.size) ∧ ∃ contents,
      bytesBlocks ram = .ok contents ∧
        ∀ b ∈ contents, Wired b ∧ b.Total ∧ b.reads = [Wire.ram.name] ∧ b.writes = []) := by
  cases ram with
  | none => exact .inr ⟨by simp, [], rfl, by simp⟩
  | some data =>
    by_cases hsize : data.size ≤ ramSize
    · obtain ⟨b, hb, hreads, hwrites, hsaid⟩ := exists_contents hsize
      refine .inr ⟨by simpa using hsize, [b], by rw [bytesBlocks, hb]; rfl, ?_⟩
      rw [List.forall_mem_singleton]
      exact ⟨wired_of_eq [.ram] [] hreads hwrites, hsaid.total, hreads, hwrites⟩
    · refine .inl ⟨⟨data, rfl, Nat.lt_of_not_le hsize⟩, .contents (.doesNotFit data.size 0), ?_⟩
      rw [bytesBlocks, Ram.contents, if_pos (by omega)]
      rfl

section Runs

variable {rom : Cartridge.Rom} {sys : Machine} (hsys : Built rom sys)
include hsys

/-- After a phase every wire has a version. -/
theorem phase_runs {t : Timeline} (ht : ∀ w ∈ initialWires, 0 < t.next w.name) :
    ∃ fs t', t.Yields sys.busPhase fs t' ∧ Defined t' := by
  obtain ⟨t', ht', fs, hyields, -⟩ := access_compiles hsys fun w hw => ht w <| by
    revert w
    decide
  refine ⟨fs, t', hyields, fun w => ?_⟩
  by_cases hw : w ∈ initialWires
  · exact Nat.lt_of_lt_of_le (ht w hw) (hyields.next_le w.name)
  · have hmade : 0 < w.made := by
      cases w with
      | cpu v => cases v <;> first | decide | simp [initialWires, Variable.outputs] at hw
      | answer page => simp [Wire.made, Wire.added]
      | select | address | write | data => exact Nat.one_pos
      | ram | prg => simp [initialWires] at hw
    rw [ht'.next]
    exact Nat.add_pos_right _ hmade

theorem cycle_runs {t : Timeline} (ht : Defined t) :
    ∃ fs t', t.Yields (sys.processor.cycle :: sys.busPhase) fs t' ∧ Defined t' := by
  have hwired : Wired Processor.standard.cycle :=
    wired_of_eq (Variable.inputs.map .cpu) (Variable.outputs.map .cpu)
      (by rw [List.map_map]; rfl) (by rw [List.map_map]; rfl)
  have hreads : ∀ x ∈ Processor.standard.cycle.reads, 0 < t.next x := by
    intro x hx
    obtain ⟨w, rfl⟩ := hwired.reads x hx
    exact ht w
  have htotal : ∀ b ∈ [Processor.standard.cycle], Wired b ∧ b.Total := by
    simpa using ⟨hwired, cycle_means.total⟩
  obtain ⟨fs, t₁, hcycle, -⟩ := Supplied.yields htotal ⟨fun x hx => hx, trivial⟩ hreads
  obtain ⟨fs', t', hphase, ht'⟩ := phase_runs hsys fun w _ => (ht.yields hcycle) w
  rw [hsys.processor]
  exact ⟨fs ++ fs', t', hcycle.append hphase, ht'⟩

/-- Power on runs from whatever timeline, if the bytes for RAM fit. -/
theorem powerOn_runs (t : Timeline) {contents : List Block}
    (hcontents : ∀ b ∈ contents, Wired b ∧ b.Total ∧ b.reads = [Wire.ram.name] ∧ b.writes = []) :
    ∃ fs t', t.Yields (sys.processor.powerOn sys.options.registers :: Ram.powerOn :: contents ++
      sys.mapper.initialiser :: sys.busPhase) fs t' ∧ Defined t' := by
  let before : List Block := Processor.standard.powerOn sys.options.registers :: Ram.powerOn ::
    (contents ++ [sys.mapper.initialiser])
  have htotal : ∀ b ∈ before, Wired b ∧ b.Total := by
    simp only [before, List.forall_mem_cons, List.forall_mem_append]
    exact ⟨⟨wired_of_eq [] (Variable.outputs.map .cpu) rfl (by rw [List.map_map]; rfl),
        (powerOn_means _).total⟩, ⟨wired_of_eq [] [.ram] rfl rfl, ram_powerOn_means.total⟩,
      fun b hb => ⟨(hcontents b hb).1, (hcontents b hb).2.1⟩,
      ⟨wired_of_eq [] [.prg] rfl rfl, (initialiser_means hsys.mapper).total⟩, by simp⟩
  have hsupplied : Supplied [] before := by
    refine ⟨by simp [powerOn], by simp [Ram.powerOn], supplied_of_reads fun b hb x hx => ?_⟩
    rcases List.mem_append.1 hb with hb | hb
    · rw [(hcontents b hb).2.2.1] at hx
      exact List.mem_append_left _ hx
    · rw [List.mem_singleton.1 hb] at hx
      simp [Cartridge.Mapper.initialiser] at hx
  obtain ⟨fs, t₁, hyields, hpos⟩ := hsupplied.yields htotal (t := t) (by simp)
  have hwritten : ∀ w ∈ initialWires, ∃ b ∈ before, w.name ∈ b.writes := by
    simp only [initialWires, List.forall_mem_cons, List.forall_mem_map]
    exact ⟨⟨sys.mapper.initialiser, by simp [before], List.mem_singleton_self _⟩,
      ⟨Ram.powerOn, by simp [before], List.mem_singleton_self _⟩,
      fun v hv => ⟨_, List.mem_cons_self, List.mem_map_of_mem hv⟩⟩
  obtain ⟨fs', t', hphase, ht'⟩ := phase_runs hsys fun w hw => hpos w.name (.inr (hwritten w hw))
  refine ⟨fs ++ fs', t', ?_, ht'⟩
  have hall := hyields.append hphase
  rw [hsys.processor]
  simpa [before] using hall

end Runs

/-! ## Machines after operations -/

/-- A machine with its ROM and its options. Every wire has a version if it is powered on. -/
structure Operable (rom : Cartridge.Rom) (options : MachineOptions) (sys : Machine) : Prop
    extends Built rom sys where
  options : sys.options = options
  defined : sys.poweredOn = true → Defined sys.timeline

/-- The bytes for RAM are too many. -/
def Overfull (options : MachineOptions) : Prop :=
  ∃ data, options.ram = some data ∧ ramSize < data.size

section Operations

variable {rom : Cartridge.Rom} {options : MachineOptions} {log : Log} {sys : Machine}

theorem operable_of_ofRom (h : Machine.ofRom rom options log = .ok sys) :
    Operable rom options sys := by
  have hassembled := assembled_of_ofRom h
  exact ⟨hassembled.toBuilt, hassembled.options, fun hon => by simp [hassembled.off] at hon⟩

variable (h : Operable rom options sys)
include h

theorem Operable.powerOn_cases :
    ((sys.poweredOn = true ∨ Overfull options) ∧ ∃ e, sys.powerOn = (sys, .error e)) ∨
    (¬ (sys.poweredOn = true ∨ Overfull options) ∧
      ∃ sys', sys.powerOn = (sys', .ok ()) ∧ Operable rom options sys' ∧
        sys'.poweredOn = true) := by
  by_cases hon : sys.poweredOn = true
  · exact .inl ⟨.inl hon, .alreadyPoweredOn, by rw [Machine.powerOn, if_pos hon]⟩
  · rcases bytesBlocks_cases options.ram with ⟨hfull, e, he⟩ | ⟨hfits, contents, hbs, hcontents⟩
    · refine .inl ⟨.inr hfull, e, ?_⟩
      have hblocks : sys.powerOnBlocks = .error e := by
        rw [powerOnBlocks_eq_bind, h.options, he]
        rfl
      rw [Machine.powerOn, if_neg hon, hblocks]
    · obtain ⟨fs, t, hyields, hdefined⟩ := powerOn_runs h.toBuilt sys.timeline hcontents
      obtain ⟨fragments, size, log, happly⟩ := Machine.apply_of_yields hyields "power on"
      have hblocks : sys.powerOnBlocks = .ok (sys.processor.powerOn sys.options.registers ::
          Ram.powerOn :: contents ++ sys.mapper.initialiser :: sys.busPhase) := by
        rw [powerOnBlocks_eq_bind, h.options, hbs]
        rfl
      refine .inr ⟨not_or.2 ⟨hon, hfits⟩,
        { sys with timeline := t, fragments, size, log, poweredOn := true }, ?_,
        ⟨⟨h.processor, h.mapper, h.handlers⟩, h.options, fun _ => hdefined⟩, rfl⟩
      rw [Machine.powerOn, if_neg hon, hblocks]
      simp only [happly]

theorem Operable.step_cases :
    (¬ sys.poweredOn = true ∧ ∃ e, sys.step = (sys, .error e)) ∨
    (sys.poweredOn = true ∧ ∃ sys', sys.step = (sys', .ok ()) ∧ Operable rom options sys' ∧
      sys'.poweredOn = true) := by
  by_cases hon : sys.poweredOn = true
  · obtain ⟨fs, t, hyields, hdefined⟩ := cycle_runs h.toBuilt (h.defined hon)
    obtain ⟨fragments, size, log, happly⟩ := Machine.apply_of_yields hyields
      ("cycle " ++ Text.decimal (sys.cycles + 1))
    refine .inr ⟨hon,
      { sys with timeline := t, fragments, size, log, cycles := sys.cycles + 1 }, ?_,
      ⟨⟨h.processor, h.mapper, h.handlers⟩, h.options, fun _ => hdefined⟩, hon⟩
    rw [Machine.step, if_neg (by simp [hon]), happly]
  · exact .inl ⟨hon, .notPoweredOn, by rw [Machine.step, if_pos (by simpa using hon)]⟩

/-- Cycles fail at the first one or not at all. -/
theorem Operable.run_cases (n : Nat) :
    (¬ sys.poweredOn = true ∧ ∃ e, sys.run n = (sys, .error e)) ∨
    ∃ sys', sys.run n = (sys', .ok ()) ∧ Operable rom options sys' ∧
      sys'.poweredOn = sys.poweredOn := by
  induction n generalizing sys with
  | zero => exact .inr ⟨sys, rfl, h, rfl⟩
  | succ n ih =>
    rcases h.step_cases with ⟨hoff, e, he⟩ | ⟨hon, sys₁, hstep, hsys₁, hon₁⟩
    · exact .inl ⟨hoff, e, by rw [Machine.run, he]⟩
    · rcases ih hsys₁ with ⟨hoff, -⟩ | ⟨sys', hrun, hsys', hon'⟩
      · exact absurd hon₁ hoff
      · refine .inr ⟨sys', ?_, hsys', hon'.trans (hon₁.trans hon.symm)⟩
        rw [Machine.run, hstep]
        exact hrun

/-- A block of one's own may fail, but only as a whole. -/
theorem Operable.applyBlock_cases (b : Block) :
    (∃ e, sys.applyBlock b = (sys, .error e)) ∨
    ∃ sys', sys.applyBlock b = (sys', .ok ()) ∧ Operable rom options sys' ∧
      sys'.poweredOn = sys.poweredOn := by
  cases hb : sys.timeline.apply b with
  | error e =>
    refine .inl ⟨.timeline e, ?_⟩
    rw [Machine.applyBlock, Machine.apply, Machine.applyBlocks, hb]
  | ok r =>
    have hyields : sys.timeline.Yields [b] [r.1] r.2 := .cons hb .nil
    obtain ⟨fragments, size, log, happly⟩ := Machine.apply_of_yields hyields "unit"
    exact .inr ⟨{ sys with timeline := r.2, fragments, size, log }, happly,
      ⟨⟨h.processor, h.mapper, h.handlers⟩, h.options, fun hon => (h.defined hon).yields hyields⟩,
      rfl⟩

/-- An operation fails and leaves the machine as it was, or the formula grows. -/
theorem Operable.perform_cases (op : Operation) :
    (∃ e, sys.perform op = (sys, .error e)) ∨
    ∃ sys', sys.perform op = (sys', .ok ()) ∧ Operable rom options sys' ∧
      sys.formula <+: sys'.formula ∧
      (sys'.poweredOn = true ↔ sys.poweredOn = true ∨ op = .powerOn) := by
  have hrun : ∀ n, op ≠ .powerOn → sys.perform op = sys.run n →
      (∃ e, sys.perform op = (sys, .error e)) ∨ ∃ sys', sys.perform op = (sys', .ok ()) ∧
        Operable rom options sys' ∧ sys.formula <+: sys'.formula ∧
        (sys'.poweredOn = true ↔ sys.poweredOn = true ∨ op = .powerOn) := by
    intro n hne hop
    rw [hop]
    refine (h.run_cases n).imp And.right ?_
    rintro ⟨sys', hrun, hsys', hon⟩
    obtain ⟨bs, fs, happlied⟩ := Machine.applied_of_run hrun
    exact ⟨sys', hrun, hsys', Machine.prefix_of_applied happlied, by simp [hon, hne]⟩
  cases op with
  | powerOn =>
    refine h.powerOn_cases.imp And.right ?_
    rintro ⟨-, sys', hpower, hsys', hon⟩
    obtain ⟨bs, fs, -, happlied⟩ := Machine.applied_of_powerOn hpower
    exact ⟨sys', hpower, hsys', Machine.prefix_of_applied happlied, by simp [hon]⟩
  | step =>
    refine h.step_cases.imp And.right ?_
    rintro ⟨hon, sys', hstep, hsys', hon'⟩
    obtain ⟨fs, happlied⟩ := Machine.applied_of_step hstep
    exact ⟨sys', hstep, hsys', Machine.prefix_of_applied happlied, by simp [hon, hon']⟩
  | run cycles => exact hrun cycles.toNat (by simp) rfl
  | reset => exact hrun Machine.resetCycles (by simp) rfl
  | symbol name =>
    rw [Machine.perform]
    cases sys.symbol name with
    | error e => exact .inl ⟨e, rfl⟩
    | ok s => exact .inr ⟨sys, rfl, h, List.prefix_rfl, by simp⟩
  | apply b =>
    refine (h.applyBlock_cases b).imp_right ?_
    rintro ⟨sys', happly, hsys', hon⟩
    obtain ⟨fs, happlied⟩ := Machine.applied_of_apply happly
    exact ⟨sys', happly, hsys', Machine.prefix_of_applied happlied, by simp [hon]⟩

omit h in
/-- A machine stays operable, and it is powered on exactly if power on has succeeded. -/
theorem operable_performAll (hsys : Machine.ofRom rom options log = .ok sys)
    (ops : List Operation) : Operable rom options (sys.performAll ops) ∧
      ((sys.performAll ops).poweredOn = true ↔ sys.PoweredBy ops) := by
  induction ops using List.reverseRecOn with
  | nil =>
    refine ⟨operable_of_ofRom hsys, ?_⟩
    simp [Machine.performAll, Machine.PoweredBy, (assembled_of_ofRom hsys).off]
  | append_singleton ops op ih =>
    obtain ⟨hoperable, hon⟩ := ih
    rw [Machine.performAll_concat, Machine.poweredBy_concat, ← hon]
    rcases hoperable.perform_cases op with ⟨e, he⟩ | ⟨sys', hop, hsys', -, hon'⟩
    · rw [he]
      refine ⟨hoperable, Iff.symm (or_iff_left ?_)⟩
      rintro ⟨rfl, hpower⟩
      rw [Machine.perform] at he
      simp [he] at hpower
    · rw [hop, hon']
      refine ⟨hsys', or_congr_right (iff_self_and.2 ?_)⟩
      rintro rfl
      exact congrArg Prod.snd hop

end Operations

/-- What holds of all operations after operations `ops`. -/
structure Atomic (options : MachineOptions) (sys : Machine) (ops : List Operation) : Prop where
  failed : ∀ op e, ((sys.performAll ops).perform op).2 = .error e →
    ((sys.performAll ops).perform op).1 = sys.performAll ops
  succeeded : ∀ op, ((sys.performAll ops).perform op).2 = .ok () →
    (sys.performAll ops).formula <+: ((sys.performAll ops).perform op).1.formula
  powerOn_fails : (∃ e, (sys.performAll ops).powerOn.2 = .error e) ↔
    (sys.performAll ops).poweredOn = true ∨ ∃ data, options.ram = some data ∧ 2048 < data.size
  step_fails : (∃ e, (sys.performAll ops).step.2 = .error e) ↔ ¬ sys.PoweredBy ops
  on : (sys.performAll ops).poweredOn = true ↔ sys.PoweredBy ops

/-- Operations are atomic. After any operations on a new machine, an operation that fails leaves
the whole machine as it was, with its formula, its versions, its cycles and its state of power; one
that succeeds appends commands. Power on fails exactly on a machine that is powered on or with too
many bytes for RAM, a cycle exactly where power on has not succeeded. -/
theorem atomic_of_ofRom {rom : Cartridge.Rom} {options : MachineOptions} {log : Log}
    {sys : Machine} (hsys : Machine.ofRom rom options log = .ok sys) (ops : List Operation) :
    Atomic options sys ops := by
  obtain ⟨hoperable, hon⟩ := operable_performAll hsys ops
  refine ⟨fun op e he => ?_, fun op hok => ?_, ?_, ?_, hon⟩
  · rcases hoperable.perform_cases op with ⟨e', hop⟩ | ⟨sys', hop, -⟩
    · rw [hop]
    · simp [hop] at he
  · rcases hoperable.perform_cases op with ⟨e', hop⟩ | ⟨sys', hop, -, hprefix, -⟩
    · simp [hop] at hok
    · rwa [hop]
  · rcases hoperable.powerOn_cases with ⟨hcause, e, he⟩ | ⟨hcause, sys', hpower, -⟩
    · exact iff_of_true ⟨e, by rw [he]⟩ hcause
    · exact iff_of_false (by simp [hpower]) hcause
  · rw [← hon]
    rcases hoperable.step_cases with ⟨hoff, e, he⟩ | ⟨hon', sys', hstep, -⟩
    · exact iff_of_true ⟨e, by rw [he]⟩ hoff
    · exact iff_of_false (by simp [hstep]) (not_not.2 hon')

/-- A byte too many for RAM, after a cycle that fails and a constant without bits. -/
theorem atomic_of_ofRom_refused : ∃ sys,
    Machine.ofRom ⟨"", 0, Bytes.zeros 16384⟩ { ram := some (Bytes.zeros 2049) } = .ok sys ∧
    Atomic { ram := some (Bytes.zeros 2049) } sys [.step, .apply (.pin "CPU_A" 0 0)] ∧
    ∃ e, (sys.performAll [.step, .apply (.pin "CPU_A" 0 0)]).powerOn.2 = .error e := by
  obtain ⟨sys, hsys⟩ := exists_ofRom_bank { ram := some (Bytes.zeros 2049) } .central
  have hsize : (Bytes.zeros 2049).size = 2049 := Array.size_replicate
  have hatomic := atomic_of_ofRom hsys [.step, .apply (.pin "CPU_A" 0 0)]
  exact ⟨sys, hsys, hatomic, hatomic.powerOn_fails.2 (.inr ⟨_, rfl, by omega⟩)⟩

end Cycle

end CycleCheck
