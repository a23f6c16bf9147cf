import CycleCheck.Proofs.Cycle.Contents
import CycleCheck.Proofs.Cycle.Step

/-!
Power on: the outputs of the processor, RAM with the supplied bytes, the ROM, and the first phase.
Its blocks say that the values are an initial state of the reference machine.
-/

namespace CycleCheck.Cycle

open Processor Memory

/-! ## Versions -/

/-- The versions when each of some wires was written once. -/
def once (ws : List Wire) (w : Wire) : Nat := if w ∈ ws then 1 else 0

theorem at_empty : At {} (once []) := by
  intro w
  simp [Timeline.next, once]

theorem at_once {t : Timeline} {ws : List Wire} (ht : At t (once ws)) (new : List Wire)
    (hnew : ∀ w ∈ new, w ∉ ws) : At (t.advance (new.map Wire.name)) (once (new ++ ws)) := by
  refine ht.advance new fun w => ?_
  unfold once
  by_cases hw : w ∈ new
  · simp [hw, hnew w hw]
  · simp [hw]

/-- The wires of power on before the first phase. -/
def initialWires : List Wire := .prg :: .ram :: Variable.outputs.map .cpu

theorem count_zero (w : Wire) : w.count 0 false 0 false = once initialWires w := by
  cases w with
  | cpu v => cases v <;> rfl
  | select | address | write | data | answer | ram | prg => simp [Wire.count, once, initialWires]

/-! ## Blocks -/

theorem outputs_compile (registers : Option Registers) {t : Timeline} (ht : At t (once [])) :
    t.Compiles [Processor.standard.powerOn registers]
      (t.advance (Processor.standard.powerOn registers).writes) (fun (_ : Unit) _ => True)
      (fun _ I => ∃ c, ShowsCpu (version I 0) c ∧ c.PoweredOn registers) := by
  refine ht.compiles (powerOn_means registers) (by simp [powerOn]) ?_ (by simp) ?_
  · intro x hx
    obtain ⟨v, -, rfl⟩ := List.mem_map.1 hx
    exact ⟨.cpu v, rfl⟩
  · intro _ I _
    have hfresh : ∀ c, ShowsCpu (fun x => I (t.fresh x).name) c ↔ ShowsCpu (version I 0) c :=
      fun c => forall₂_congr fun v _ => iff_of_eq (congrArg (· = _) (ht.fresh I (.cpu v)))
    simp only [hfresh]

theorem ram_compiles {t : Timeline} {ws : List Wire} (ht : At t (once ws)) (hram : .ram ∉ ws) :
    t.Compiles [Ram.powerOn] (t.advance Ram.powerOn.writes) (fun (_ : Cpu) _ => True)
      (fun _ I => ∃ m, version I 0 Ram.memory = .array 11 8 m) := by
  refine ht.compiles (ram_powerOn_means.comap fun _ => ()) (by simp [Ram.powerOn]) ?_ (by simp) ?_
  · intro x hx
    exact ⟨.ram, List.mem_singleton.1 hx⟩
  · intro _ I _
    have hfresh := ht.fresh I .ram
    rw [once, if_neg hram] at hfresh
    exact iff_of_eq (congrArg (fun v => ∃ m, v = Meaning.array 11 8 m) hfresh)

theorem prg_compiles {m : Cartridge.Mapper} {rom : Cartridge.Rom} (hm : MapsTo m rom)
    {t : Timeline} {ws : List Wire} (ht : At t (once ws)) (hprg : .prg ∉ ws) :
    t.Compiles [m.initialiser] (t.advance m.initialiser.writes) (fun (_ : Cpu × Cells) _ => True)
      (fun _ I => version I 0 Cartridge.Mapper.prg = content rom) := by
  refine ht.compiles ((initialiser_means hm).comap fun _ => ()) ?_ ?_ (by simp) ?_
  · simp [Cartridge.Mapper.initialiser]
  · intro x hx
    exact ⟨.prg, List.mem_singleton.1 hx⟩
  · intro _ I _
    have hfresh := ht.fresh I .prg
    rw [once, if_neg hprg] at hfresh
    exact iff_of_eq (congrArg (· = content rom) hfresh)

/-- RAM holds the supplied bytes. -/
def HoldsBytes (ram : Option ByteArray) (m : Cells) : Prop :=
  ∀ data, ram = some data → ∀ i < data.size, m (.ofNat 11 i) = (Bytes.get data i).toBitVec

theorem bytes_compile {t : Timeline} {ws : List Wire} (ht : At t (once ws)) (hram : .ram ∈ ws)
    {data : ByteArray} (hsize : data.size ≤ ramSize) :
    ∃ b t', Ram.contents 0 data = .ok b ∧ At t' (once ws) ∧
      t.Compiles [b] t' (fun (s : Cpu × Cells) I => version I 0 Ram.memory = .array 11 8 s.2)
        (fun s _ => HoldsBytes (some data) s.2) := by
  obtain ⟨b, hb, hreads, hwrites, hsaid⟩ := exists_contents hsize
  have hcount : once ws .ram = 1 := if_pos hram
  refine ⟨b, _, hb, ?_, ht.compiles (hsaid.comap Prod.snd) ?_ ?_ ?_ ?_⟩
  · rw [hwrites]
    exact ht.advance [] (by simp)
  · rw [hreads]
    intro x hx
    exact ⟨.ram, by rw [hcount]; decide, List.mem_singleton.1 hx⟩
  · simp [hwrites]
  · intro s I hs
    have hlatest := ht.latest I .ram
    rw [hcount] at hlatest
    exact hlatest.trans hs
  · intro s I _
    simp [HoldsBytes]

/-- The blocks of the supplied bytes, if there are any. -/
def bytesBlocks (ram : Option ByteArray) : Except MachineError (List Block) :=
  match ram with
  | none => pure []
  | some data => (Ram.contents 0 data).mapError .contents |>.map ([·])

theorem powerOnBlocks_eq_bind (sys : Machine) : sys.powerOnBlocks =
    bytesBlocks sys.options.ram >>= fun contents =>
      pure (sys.processor.powerOn sys.options.registers :: Ram.powerOn :: contents ++
        sys.mapper.initialiser :: sys.busPhase) := by
  cases h : sys.options.ram <;> simp only [Machine.powerOnBlocks, bytesBlocks, h]

theorem contents_compile {t : Timeline} {ws : List Wire} (ht : At t (once ws)) (hram : .ram ∈ ws)
    {ram : Option ByteArray} (hsize : ∀ data, ram = some data → data.size ≤ ramSize) :
    ∃ bs t', bytesBlocks ram = .ok bs ∧
      At t' (once ws) ∧
      t.Compiles bs t' (fun (s : Cpu × Cells) I => version I 0 Ram.memory = .array 11 8 s.2)
        (fun s _ => HoldsBytes ram s.2) := by
  cases ram with
  | none => exact ⟨[], t, rfl, ht, .nil fun s I _ => by simp [HoldsBytes]⟩
  | some data =>
    obtain ⟨b, t', hb, ht', hcompiles⟩ := bytes_compile ht hram (hsize data rfl)
    refine ⟨[b], t', ?_, ht', hcompiles⟩
    rw [bytesBlocks, hb]
    rfl

/-! ## All blocks -/

theorem store_of_poweredOn {c : Cpu} {registers : Option Registers} (h : c.PoweredOn registers)
    (m : Cells) : c.store m = m := by
  rw [Cpu.store, h.writeEnable]
  rfl

/-- The outputs of power on, and some content of RAM. -/
def Unknown (registers : Option Registers) (u : Cpu × Cells) (I : Interpretation) : Prop :=
  (ShowsCpu (version I 0) u.1 ∧ u.1.PoweredOn registers) ∧
    version I 0 Ram.memory = .array 11 8 u.2

theorem unknown_compiles (registers : Option Registers) :
    ∃ t, At t (once (.ram :: Variable.outputs.map .cpu)) ∧
      Timeline.Compiles {} ([Processor.standard.powerOn registers] ++ [Ram.powerOn]) t
        (fun (_ : Unit) _ => True) (fun _ I => ∃ u, Unknown registers u I) := by
  have hat := at_once at_empty (Variable.outputs.map .cpu) (by simp)
  have hwrites : (Processor.standard.powerOn registers).writes =
      (Variable.outputs.map Wire.cpu).map Wire.name := by
    rw [List.map_map]
    rfl
  rw [List.append_nil, ← hwrites] at hat
  refine ⟨_, at_once hat [.ram] (by simp), ?_⟩
  refine ((outputs_compile registers at_empty).andThen (ram_compiles hat (by simp))
    fun _ _ _ _ _ => trivial).congr fun _ I _ => ?_
  constructor
  · rintro ⟨c, hc, m, hm⟩
    exact ⟨(c, m), hc, hm⟩
  · rintro ⟨u, hc, hm⟩
    exact ⟨u.1, hc, u.2, hm⟩

/-- The blocks of power on say that the values are an initial state. -/
theorem powerOn_compiles {rom : Cartridge.Rom} {sys : Machine} (hsys : Built rom sys)
    (hsize : ∀ data, sys.options.ram = some data → data.size ≤ ramSize) :
    ∃ bs t', sys.powerOnBlocks = .ok bs ∧ At t' (Wire.count 0 true 16 true) ∧
      Timeline.Compiles {} bs t' (fun (_ : Unit) _ => True)
        (fun _ I => ∃ s, Initial rom sys.options s ∧ version I 0 Ram.memory = .array 11 8 s.ram ∧
          version I 0 Cartridge.Mapper.prg = content rom ∧ Shows rom 0 s.ram s I) := by
  obtain ⟨t₁, ht₁, hunknown⟩ := unknown_compiles sys.options.registers
  obtain ⟨bs, t₂, hbs, ht₂, hbytes⟩ := contents_compile ht₁ (by simp) hsize
  have hprg := prg_compiles hsys.mapper ht₂ (by simp)
  have ht₃ : At (t₂.advance sys.mapper.initialiser.writes) (Wire.count 0 false 0 false) :=
    fun w => (at_once ht₂ [.prg] (by simp) w).trans (count_zero w).symm
  obtain ⟨t', ht', hphase⟩ := phase_compiles hsys ht₃
  have hblocks : sys.powerOnBlocks = .ok ([Processor.standard.powerOn sys.options.registers] ++
      [Ram.powerOn] ++ (bs ++ [sys.mapper.initialiser] ++ sys.busPhase)) := by
    rw [powerOnBlocks_eq_bind, hbs, hsys.processor, List.append_assoc bs]
    rfl
  have hknown := (hbytes.weaken fun u I (hu : Unknown sys.options.registers u I) => hu.2).append
    hprg fun _ _ _ _ => trivial
  have hall := hunknown.andThen (hknown.append hphase fun u I hu hQ => ⟨hu.1.1, hu.2, hQ.2⟩)
    fun _ u I _ hu => hu
  refine ⟨_, t', hblocks, ht', hall.congr fun _ I _ => ?_⟩
  constructor
  · rintro ⟨⟨c, m⟩, ⟨⟨hc, hon⟩, hm⟩, ⟨hpinned, hrom⟩, hphase⟩
    have hstore : m = c.store m := (store_of_poweredOn hon m).symm
    exact ⟨⟨c, c.respond rom m, m⟩, ⟨hon, hpinned, rfl⟩, hm, hrom,
      (shows_iff hstore rfl).2 ⟨hc, hphase⟩⟩
  · rintro ⟨s, hinitial, hm, hrom, hshows⟩
    have hstore : s.ram = s.cpu.store s.ram := (store_of_poweredOn hinitial.cpu s.ram).symm
    obtain ⟨hc, hphase⟩ := (shows_iff hstore hinitial.dataIn).1 hshows
    exact ⟨(s.cpu, s.ram), ⟨⟨hc, hinitial.cpu⟩, hm⟩, ⟨hinitial.ram, hrom⟩, hphase⟩

end CycleCheck.Cycle
