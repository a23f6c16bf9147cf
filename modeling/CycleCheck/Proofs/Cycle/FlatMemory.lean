import CycleCheck.Proofs.Cycle.WellFormed

/-!
A bus phase as one access of a flat memory. Whatever was declared before, the commands of a phase
have exactly one value for each symbol they declare: the byte on the data bus is the byte of the
memory, and RAM changes in one cell at most.
-/

namespace CycleCheck.Cycle

open Processor Memory

/-- A block that reads and writes wires. -/
structure Wired (b : Block) : Prop where
  reads : ∀ x ∈ b.reads, ∃ w : Wire, x = w.name
  writes : ∀ x ∈ b.writes, ∃ w : Wire, x = w.name

theorem wired_of_eq {b : Block} (rs ws : List Wire) (hreads : b.reads = rs.map Wire.name)
    (hwrites : b.writes = ws.map Wire.name) : Wired b where
  reads x hx := by
    obtain ⟨w, -, rfl⟩ := List.mem_map.1 (hreads ▸ hx)
    exact ⟨w, rfl⟩
  writes x hx := by
    obtain ⟨w, -, rfl⟩ := List.mem_map.1 (hwrites ▸ hx)
    exact ⟨w, rfl⟩

theorem Serves.wired {rom : Cartridge.Rom} {page : Fin 16} {h : PageHandler}
    (hserves : Serves rom page h) : Wired h.block where
  reads x hx := by
    obtain ⟨w, -, rfl⟩ := hserves.reads x hx
    exact ⟨w, rfl⟩
  writes x hx := by
    rw [hserves.writes] at hx
    obtain ⟨w, -, rfl⟩ := List.mem_map.1 hx
    exact ⟨w, rfl⟩

theorem wired_busPhase {rom : Cartridge.Rom} {sys : Machine} (hsys : Built rom sys) :
    ∀ b ∈ sys.busPhase, Wired b := by
  obtain ⟨h, hhandlers, hserves⟩ := hsys.handlers
  rw [Machine.busPhase, slots_eq hhandlers hserves, hhandlers, List.map_map, List.cons_append,
    List.forall_mem_cons, List.forall_mem_append, List.forall_mem_map, List.forall_mem_singleton]
  exact ⟨wired_of_eq [.cpu .addressBus, .cpu .writeEnable, .cpu .dataOut] frontWires rfl
    writes_frontHalf, fun page _ => (hserves page).wired,
    wired_of_eq _ [.cpu .dataIn] reads_backHalf rfl⟩

/-! ## The symbols of a phase -/

/-- How many versions a whole phase makes of a wire. -/
def Wire.made (w : Wire) : Nat := w.added true 16 true

theorem ahead_injective {t : Timeline} {v w : Wire} {i j : Nat}
    (h : (ahead t v i).name = (ahead t w j).name) : v = w ∧ i = j := by
  obtain ⟨hname, hversion⟩ := Timeline.versionedName_injective h
  obtain rfl := Wire.name_injective hname
  exact ⟨rfl, Nat.add_left_cancel hversion⟩

/-- The symbols that a phase declares are the versions that it makes. -/
theorem mem_signature_iff {rom : Cartridge.Rom} {bits : Nat} {sys : Machine} (hsys : Built rom sys)
    (haccounted : Accounted bits sys) {t t' : Timeline} {fs : List Formula}
    (h : t.Yields sys.busPhase fs t') (ht : During t t' true 16 true) {y : String} {k : Kind} :
    (y, k) ∈ Formula.signature fs.flatten ↔
      ∃ w n, n < Wire.made w ∧ y = (ahead t w n).name ∧ k = w.kind bits := by
  have hsorted := sorted_busPhase hsys haccounted
  have hextends := h.extends hsorted
  constructor
  · intro hy
    obtain ⟨x, v, hv, rfl, rfl⟩ := (hextends.scope y k).2 (.inr hy)
    have hnew : t.next x ≤ v := Nat.le_of_not_lt fun hlt =>
      hextends.fresh _ _ _ hy ⟨x, v, hlt, rfl, rfl⟩
    by_cases hwire : ∃ w : Wire, x = w.name
    · obtain ⟨w, rfl⟩ := hwire
      rw [ht.next] at hv
      refine ⟨w, v - t.next w.name, ?_, ?_, kindOf_name bits w⟩
      · rw [Wire.made]
        omega
      · rw [ahead, Nat.add_sub_cancel' hnew]
    · have hsame := h.next_of_notMem fun b hb =>
        ⟨(hsorted b hb).1.keeps, fun hx => hwire ((wired_busPhase hsys b hb).writes x hx)⟩
      omega
  · rintro ⟨w, n, hn, rfl, rfl⟩
    have hscope : t'.scope (kindOf bits) (ahead t w n).name (w.kind bits) := by
      refine ⟨w.name, t.next w.name + n, ?_, rfl, (kindOf_name bits w).symm⟩
      rw [ht.next]
      exact Nat.add_lt_add_left hn _
    refine ((hextends.scope _ _).1 hscope).resolve_left ?_
    rintro ⟨x, v, hv, hname, -⟩
    obtain ⟨rfl, rfl⟩ := Timeline.versionedName_injective hname
    omega

/-! ## The values of a phase -/

/-- The value of a version that a phase makes, `m` in RAM before it. -/
def accessValue (rom : Cartridge.Rom) (c : Cpu) (m : Cells) : Wire → Nat → Meaning
  | .cpu _, _ => .bits 8 (c.respond rom m)
  | .select page, _ => .bits 1 (c.selects page)
  | .address _, _ => .bits 16 c.addressBus
  | .write _, _ => .bits 1 c.writeEnable
  | .data _, _ => .bits 8 c.dataOut
  | .answer page, _ => .bits 8 (c.answer rom page (c.before page m))
  | .ram, n => .array 11 8 (if n = 0 then c.storePage 0 m else c.store m)
  | .prg, _ => content rom

section Values

variable {rom : Cartridge.Rom} {c : Cpu} {m : Cells}

theorem kind_accessValue (bits : Nat) {w : Wire} {n : Nat} (hn : n < w.made) :
    (accessValue rom c m w n).kind = w.kind bits := by
  cases w with
  | cpu v =>
    obtain rfl : v = .dataIn := by
      by_contra hv
      simp [Wire.made, Wire.added, hv] at hn
    rfl
  | prg => exact absurd hn (Nat.not_lt_zero n)
  | select | address | write | data | answer | ram => rfl

/-- A phase makes one value for each of its symbols. -/
theorem access_iff_values {t : Timeline} {I : Interpretation} : Access rom t c m I ↔
    ∀ w n, n < Wire.made w → I (ahead t w n).name = accessValue rom c m w n := by
  constructor
  · intro h w n hn
    cases w with
    | cpu v =>
      by_cases hv : v = .dataIn
      · subst hv
        obtain rfl : n = 0 := Nat.lt_one_iff.1 hn
        exact h.dataIn
      · simp [Wire.made, Wire.added, hv] at hn
    | prg => exact absurd hn (Nat.not_lt_zero n)
    | ram =>
      have hcases : n = 0 ∨ n = 1 := by
        have hlt : n < 2 := hn
        omega
      rcases hcases with rfl | rfl
      · exact h.middle
      · exact h.ram
    | answer page =>
      obtain rfl : n = 0 := by
        have hmade : Wire.made (.answer page) = 1 := if_pos page.isLt
        omega
      exact h.answers page
    | select page =>
      obtain rfl : n = 0 := Nat.lt_one_iff.1 hn
      exact (h.inputs page).select
    | address page =>
      obtain rfl : n = 0 := Nat.lt_one_iff.1 hn
      exact (h.inputs page).address
    | write page =>
      obtain rfl : n = 0 := Nat.lt_one_iff.1 hn
      exact (h.inputs page).write
    | data page =>
      obtain rfl : n = 0 := Nat.lt_one_iff.1 hn
      exact (h.inputs page).data
  · intro h
    have hanswer : ∀ page : Fin 16, 0 < Wire.made (.answer page) := by
      intro page
      rw [Wire.made, Wire.added, if_pos page.isLt]
      exact Nat.one_pos
    exact ⟨fun page => ⟨h (.select page) 0 Nat.one_pos, h (.address page) 0 Nat.one_pos,
        h (.write page) 0 Nat.one_pos, h (.data page) 0 Nat.one_pos⟩,
      fun page => h (.answer page) 0 (hanswer page), h .ram 0 (by decide), h .ram 1 (by decide),
      h (.cpu .dataIn) 0 (by decide)⟩

end Values

/-- A version that a phase makes. -/
def Made : Type := { p : Wire × Nat // p.2 < p.1.made }

/-- The symbol of a version that a phase makes. -/
def Made.symbol (t : Timeline) (p : Made) : String := (ahead t p.1.1 p.1.2).name

theorem Made.symbol_injective (t : Timeline) : Function.Injective (Made.symbol t) := by
  rintro ⟨⟨v, i⟩, hi⟩ ⟨⟨w, j⟩, hj⟩ h
  obtain ⟨rfl, rfl⟩ := ahead_injective h
  rfl

open Classical in
/-- An interpretation with the values of a phase for its symbols. -/
noncomputable def accessed (rom : Cartridge.Rom) (c : Cpu) (m : Cells) (t : Timeline)
    (I : Interpretation) : Interpretation :=
  Function.extend (Made.symbol t) (fun p => accessValue rom c m p.1.1 p.1.2) I

section Accessed

variable {rom : Cartridge.Rom} {c : Cpu} {m : Cells} {t : Timeline} {I : Interpretation}

theorem accessed_ahead {w : Wire} {n : Nat} (hn : n < w.made) :
    accessed rom c m t I (ahead t w n).name = accessValue rom c m w n :=
  (Made.symbol_injective t).extend_apply _ _ (⟨(w, n), hn⟩ : Made)

theorem accessed_other {y : String} (hy : ∀ w n, n < Wire.made w → y ≠ (ahead t w n).name) :
    accessed rom c m t I y = I y := by
  refine Function.extend_apply' _ _ _ ?_
  rintro ⟨p, rfl⟩
  exact hy p.1.1 p.1.2 p.2 rfl

/-- What a phase reads was there before it. -/
theorem accessed_latest {w : Wire} (hw : 0 < t.next w.name) :
    accessed rom c m t I (t.latest w.name).name = I (t.latest w.name).name := by
  refine accessed_other fun v n hn h => ?_
  obtain ⟨hname, hversion⟩ := Timeline.versionedName_injective h
  rw [hname] at hw hversion
  omega

end Accessed

/-! ## Flat memory -/

/-- The values at the start of a phase. -/
structure BusStart (rom : Cartridge.Rom) (t : Timeline) (address : BitVec 16) (write : BitVec 1)
    (data : BitVec 8) (m : Cells) (I : Interpretation) : Prop where
  addressBus : I (t.latest Variable.addressBus.name).name = .bits 16 address
  writeEnable : I (t.latest Variable.writeEnable.name).name = .bits 1 write
  dataOut : I (t.latest Variable.dataOut.name).name = .bits 8 data
  ram : I (t.latest Ram.memory).name = .array 11 8 m
  prg : I (t.latest Cartridge.Mapper.prg).name = content rom

/-- One access of a flat memory: two kilobytes of RAM with mirrors below `0x2000`, nothing below
`0x8000`, and the ROM above. -/
structure FlatAccess (rom : Cartridge.Rom) (address : BitVec 16) (write : BitVec 1)
    (data : BitVec 8) (m : Cells) (answer : BitVec 8) (m' : Cells) : Prop where
  written : write = 1 → address.toNat < 0x2000 → answer = data
  read : write = 0 → address.toNat < 0x2000 → answer = m (.ofNat 11 (address.toNat % 0x800))
  nothing : 0x2000 ≤ address.toNat → address.toNat < 0x8000 → answer = 0
  rom : 0x8000 ≤ address.toNat →
    answer = (Bytes.get rom.prg ((address.toNat - 0x8000) % rom.prg.size)).toBitVec
  stored : write = 1 → address.toNat < 0x2000 →
    m' = Function.update m (.ofNat 11 (address.toNat % 0x800)) data
  kept : write = 0 ∨ 0x2000 ≤ address.toNat → m' = m

/-- Outputs with the signals to the bus, all others zero. -/
def Cpu.signalling (address : BitVec 16) (write : BitVec 1) (data : BitVec 8) : Cpu :=
  ⟨0, 0, 0, 0, 0, 0, 0, 0, address, write, data, 0, 0⟩

theorem setWidth_eq_ofNat_mod (address : BitVec 16) :
    address.setWidth 11 = .ofNat 11 (address.toNat % 0x800) := by
  apply BitVec.eq_of_toNat_eq
  rw [BitVec.toNat_setWidth, BitVec.toNat_ofNat]
  omega

/-- The bus of the reference machine is a flat memory. -/
theorem flatAccess_respond_store (rom : Cartridge.Rom) (c : Cpu) (m : Cells) :
    FlatAccess rom c.addressBus c.writeEnable c.dataOut m (c.respond rom m) (c.store m) where
  written hwrite hlow := by rw [Cpu.respond, if_pos hlow, if_pos hwrite]
  read hread hlow := by
    rw [Cpu.respond, if_pos hlow, if_neg (by simp [hread]), setWidth_eq_ofNat_mod]
  nothing hge hlt := by rw [Cpu.respond, if_neg (Nat.not_lt.2 hge), if_pos hlt]
  rom hge := by rw [Cpu.respond, if_neg (by omega), if_neg (Nat.not_lt.2 hge)]
  stored hwrite hlow := by rw [Cpu.store, if_pos ⟨hwrite, hlow⟩, setWidth_eq_ofNat_mod]
  kept h := by
    refine if_neg fun hstore => ?_
    rcases h with hread | hge
    · simp [hread] at hstore
    · omega

theorem accessStart_iff_busStart {rom : Cartridge.Rom} {t : Timeline} {address : BitVec 16}
    {write : BitVec 1} {data : BitVec 8} {m : Cells} {I : Interpretation} :
    AccessStart rom t (Cpu.signalling address write data, m) I ↔
      BusStart rom t address write data m I :=
  ⟨fun h => ⟨h.bus.addressBus, h.bus.writeEnable, h.bus.dataOut, h.ram, h.prg⟩,
    fun h => ⟨⟨h.addressBus, h.writeEnable, h.dataOut⟩, h.ram, h.prg⟩⟩

/-- A phase leaves what it starts from. -/
theorem BusStart.accessed {rom : Cartridge.Rom} {t : Timeline} {address : BitVec 16}
    {write : BitVec 1} {data : BitVec 8} {m : Cells} {I : Interpretation}
    (h : BusStart rom t address write data m I) (ht : ∀ w ∈ sources, 0 < t.next w.name)
    (c : Cpu) (m' : Cells) : BusStart rom t address write data m (accessed rom c m' t I) := by
  have hlatest : ∀ w ∈ sources,
      Cycle.accessed rom c m' t I (t.latest w.name).name = I (t.latest w.name).name :=
    fun w hw => accessed_latest (ht w hw)
  exact ⟨(hlatest (.cpu .addressBus) (by decide)).trans h.addressBus,
    (hlatest (.cpu .writeEnable) (by decide)).trans h.writeEnable,
    (hlatest (.cpu .dataOut) (by decide)).trans h.dataOut,
    (hlatest .ram (by decide)).trans h.ram, (hlatest .prg (by decide)).trans h.prg⟩

/-- One bus phase is one access of a flat memory: in every model of the commands of a phase, from
whatever timeline it starts, the byte on the data bus and RAM are those of the access. There is
such a model for all values at the start, and it is unique on the symbols of the phase. -/
theorem busPhase_flatAccess {rom : Cartridge.Rom} {options : MachineOptions} {log : Log}
    {sys : Machine} (hsys : Machine.ofRom rom options log = .ok sys) {t : Timeline}
    (ht : ∀ w ∈ sources, 0 < t.next w.name) :
    ∃ f t', t.applyAll sys.busPhase = (t', .ok f) ∧
      ∀ (address : BitVec 16) (write : BitVec 1) (data : BitVec 8) (m : Cells),
        (∀ I, BusStart rom t address write data m I → I.Fits f.signature → I.Satisfies f →
          ∃ answer m', I (t'.latest Variable.dataIn.name).name = .bits 8 answer ∧
            I (t'.latest Ram.memory).name = .array 11 8 m' ∧
            FlatAccess rom address write data m answer m') ∧
        (∀ I, BusStart rom t address write data m I →
          ∃ J, BusStart rom t address write data m J ∧ J.Fits f.signature ∧ J.Satisfies f ∧
            ∀ y, (∀ k, (y, k) ∉ f.signature) → J y = I y) ∧
        ∀ I J, BusStart rom t address write data m I → BusStart rom t address write data m J →
          I.Fits f.signature → J.Fits f.signature → I.Satisfies f → J.Satisfies f →
            ∀ y k, (y, k) ∈ f.signature → I y = J y := by
  have hbuilt := (assembled_of_ofRom hsys).toBuilt
  obtain ⟨t', ht', fs, hyields, hmodels⟩ := access_compiles hbuilt ht
  have hmem := fun y k => mem_signature_iff hbuilt (accounted_of_ofRom hsys) hyields ht'
    (y := y) (k := k)
  refine ⟨fs.flatten, t', hyields.applyAll_eq, fun address write data m => ?_⟩
  let c := Cpu.signalling address write data
  have hvalues : ∀ I : Interpretation, BusStart rom t address write data m I →
      I.Fits (Formula.signature fs.flatten) →
      (I.Satisfies fs.flatten ↔
        ∀ w n, n < Wire.made w → I (ahead t w n).name = accessValue rom c m w n) := by
    intro I hstart fits
    rw [Interpretation.satisfies_flatten, ← access_iff_values]
    exact hmodels (c, m) I (Interpretation.fits_flatten.1 fits) (accessStart_iff_busStart.2 hstart)
  refine ⟨fun I hstart fits hsat => ?_, fun I hstart => ?_,
    fun I J hI hJ fitsI fitsJ hsatI hsatJ y k hy => ?_⟩
  · have hall := (hvalues I hstart fits).1 hsat
    refine ⟨c.respond rom m, c.store m, ?_, ?_, flatAccess_respond_store rom c m⟩
    · have hlatest : t'.latest Variable.dataIn.name = ahead t (.cpu .dataIn) 0 :=
        ht'.latest_of_succ (w := .cpu .dataIn) rfl
      rw [hlatest]
      exact hall (.cpu .dataIn) 0 (by decide)
    · have hlatest : t'.latest Ram.memory = ahead t .ram 1 := ht'.latest_of_succ (w := .ram) rfl
      rw [hlatest]
      exact hall .ram 1 (by decide)
  · let J := accessed rom c m t I
    have hJ : BusStart rom t address write data m J := hstart.accessed ht c m
    have hall : ∀ w n, n < Wire.made w → J (ahead t w n).name = accessValue rom c m w n :=
      fun w n hn => accessed_ahead hn
    have fits : J.Fits (Formula.signature fs.flatten) := by
      intro y k hy
      obtain ⟨w, n, hn, rfl, rfl⟩ := (hmem y k).1 hy
      rw [hall w n hn]
      exact kind_accessValue _ hn
    refine ⟨J, hJ, fits, (hvalues J hJ fits).2 hall, fun y hy => accessed_other ?_⟩
    exact fun w n hn heq => hy _ ((hmem y _).2 ⟨w, n, hn, heq, rfl⟩)
  · obtain ⟨w, n, hn, rfl, -⟩ := (hmem y k).1 hy
    rw [(hvalues I hI fitsI).1 hsatI w n hn, (hvalues J hJ fitsJ).1 hsatJ w n hn]

/-- A write to the first mirror of RAM is a write to RAM. -/
theorem busPhase_flatAccess_mirror : ∃ sys f t',
    Machine.ofRom ⟨"", 0, Bytes.zeros 16384⟩ {} = .ok sys ∧
    (Timeline.advance {} (sources.map Wire.name)).applyAll sys.busPhase = (t', .ok f) ∧
    (∃ J, BusStart ⟨"", 0, Bytes.zeros 16384⟩ (Timeline.advance {} (sources.map Wire.name))
      0x801 1 7 (fun _ => 0) J ∧ J.Fits f.signature ∧ J.Satisfies f) ∧
    ∀ I, BusStart ⟨"", 0, Bytes.zeros 16384⟩ (Timeline.advance {} (sources.map Wire.name))
      0x801 1 7 (fun _ => 0) I → I.Fits f.signature → I.Satisfies f →
      I (t'.latest Variable.dataIn.name).name = .bits 8 7 ∧
        ∃ m', I (t'.latest Ram.memory).name = .array 11 8 m' ∧ m' 1 = 7 ∧ m' 2 = 0 := by
  obtain ⟨sys, hsys⟩ := exists_ofRom_bank {} .central
  have hnext : ∀ w ∈ sources,
      (Timeline.advance {} (sources.map Wire.name)).next w.name = 1 := by
    intro w hw
    rw [Timeline.next_advance, if_pos (List.mem_map_of_mem hw)]
    simp [Timeline.next]
  obtain ⟨f, t', happly, hphase⟩ := busPhase_flatAccess hsys (fun w hw => by
    rw [hnext w hw]
    exact Nat.one_pos)
  obtain ⟨hforced, hexists, -⟩ := hphase 0x801 1 7 fun _ => 0
  let I : Interpretation := fun y =>
    if y = "CPU_AddressBus_0" then .bits 16 0x801
    else if y = "CPU_WriteEnable_0" then .bits 1 1
    else if y = "CPU_DataOut_0" then .bits 8 7
    else if y = "RAM_Memory_0" then .array 11 8 fun _ => 0
    else content ⟨"", 0, Bytes.zeros 16384⟩
  have hlatest : ∀ w ∈ sources, ((Timeline.advance {} (sources.map Wire.name)).latest w.name).name =
      Timeline.versionedName w.name 0 := fun w hw => by rw [Timeline.latest, hnext w hw]
  have hI : BusStart ⟨"", 0, Bytes.zeros 16384⟩ (Timeline.advance {} (sources.map Wire.name))
      0x801 1 7 (fun _ => 0) I :=
    ⟨congrArg I (hlatest (.cpu .addressBus) (by decide)),
      congrArg I (hlatest (.cpu .writeEnable) (by decide)),
      congrArg I (hlatest (.cpu .dataOut) (by decide)),
      congrArg I (hlatest .ram (by decide)), congrArg I (hlatest .prg (by decide))⟩
  obtain ⟨J, hJ, fits, hsat, -⟩ := hexists I hI
  refine ⟨sys, f, t', hsys, happly, ⟨J, hJ, fits, hsat⟩, fun I hI fits hsat => ?_⟩
  obtain ⟨answer, m', hdata, hram, haccess⟩ := hforced I hI fits hsat
  rw [hdata, haccess.written rfl (by decide)]
  refine ⟨rfl, m', hram, ?_⟩
  rw [haccess.stored rfl (by decide)]
  exact ⟨rfl, rfl⟩

end CycleCheck.Cycle
