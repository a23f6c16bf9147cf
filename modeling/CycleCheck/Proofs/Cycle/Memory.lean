import CycleCheck.Proofs.Cycle.Wire
import CycleCheck.Proofs.Term.Build

/-!
The blocks of RAM and of the cartridge. With extensionality or without it, the two forms of an
equality of arrays mean the same, because the cells of RAM are all there are.
-/

namespace CycleCheck.Cycle

open Processor Memory

/-! ## Equality of arrays -/

section Equality

variable {I : Interpretation} {next before address data : Term} {m : Cells}

theorem denote_cellIndex (i : Nat) : I.denote (Ram.cellIndex i) = .bits 11 (.ofNat 11 i) :=
  I.denote_word 11 i

theorem denote_cell {a : Term} {f : Cells} (ha : I.denote a = .array 11 8 f) (i : Nat) :
    I.denote (.select a (Ram.cellIndex i)) = .bits 8 (f (.ofNat 11 i)) :=
  Interpretation.denote_select ha (denote_cellIndex i)

theorem forall_cell_iff {P : BitVec 11 → Prop} :
    (∀ i ∈ List.range ramSize, P (.ofNat 11 i)) ↔ ∀ x, P x := by
  refine ⟨fun h x => ?_, fun h i _ => h _⟩
  have hx := h x.toNat (List.mem_range.2 x.isLt)
  rwa [BitVec.ofNat_toNat, BitVec.setWidth_eq] at hx

theorem holds_unchanged (r : Ram) (hn : (I.denote next).kind = .array 11 8)
    (hb : I.denote before = .array 11 8 m) :
    I.Holds (r.unchanged next before) ↔ I.denote next = .array 11 8 m := by
  obtain ⟨f, hf⟩ := Meaning.exists_array_of_kind hn
  unfold Ram.unchanged
  split_ifs
  · rw [Term.eq, I.holds_eq, hb]
  · rw [Interpretation.holds_all, List.forall_mem_map]
    simp only [Interpretation.holds_eq_bits (denote_cell hf _) (denote_cell hb _)]
    rw [forall_cell_iff (P := fun x => f x = m x), ← funext_iff, hf]
    simp

theorem holds_stored (r : Ram) (hn : (I.denote next).kind = .array 11 8)
    (hb : I.denote before = .array 11 8 m) {a : BitVec 11} {d : BitVec 8}
    (ha : I.denote address = .bits 11 a) (hd : I.denote data = .bits 8 d) :
    I.Holds (r.stored next before address data) ↔
      I.denote next = .array 11 8 (Function.update m a d) := by
  obtain ⟨f, hf⟩ := Meaning.exists_array_of_kind hn
  unfold Ram.stored
  split_ifs
  · rw [Term.eq, I.holds_eq, Interpretation.denote_store hb ha hd]
  · rw [Interpretation.holds_all, List.forall_mem_map]
    have hcell : ∀ i : Nat, I.denote (.ite (.eq address (Ram.cellIndex i)) data
        (.select before (Ram.cellIndex i))) =
          .bits 8 (Function.update m a d (.ofNat 11 i)) := by
      intro i
      rw [Interpretation.denote_ite_eq ha (denote_cellIndex i), hd, denote_cell hb,
        Function.update_apply]
      by_cases hi : a = .ofNat 11 i
      · simp [hi]
      · rw [if_neg hi, if_neg (Ne.symm hi)]
    simp only [Interpretation.holds_eq_bits (denote_cell hf _) (hcell _)]
    rw [forall_cell_iff (P := fun x => f x = Function.update m a d x), ← funext_iff, hf]
    simp

end Equality

/-! ## Handlers -/

/-- What a page gets from the processor. -/
structure PageInputs (e : Valuation) (c : Cpu) (page : Fin 16) : Prop where
  select : e (Wire.select page).name = .bits 1 (c.selects page.val)
  address : e (Wire.address page).name = .bits 16 c.addressBus
  write : e (Wire.write page).name = .bits 1 c.writeEnable
  data : e (Wire.data page).name = .bits 8 c.dataOut

theorem holds_bit {I : Interpretation} {a : Term} {x : BitVec 1} (ha : I.denote a = .bits 1 x) :
    I.Holds (.eq a (.bit true)) ↔ x = 1 :=
  Interpretation.holds_eq_bits ha (I.denote_bit true)

theorem selects_eq_one {c : Cpu} {page : Nat} : c.selects page = 1 ↔ c.page = page := by
  unfold Cpu.selects
  by_cases h : c.page = page
  · simp [h]
  · have hne : (c.page == page) = false := beq_eq_false_iff_ne.2 h
    simp [hne, h]

theorem holds_symbol {I : Interpretation} {x : Symbol} {t : Term} {m : Meaning}
    (ht : I.denote t = m) : I.Holds (.eq (.symbol x) t) ↔ I x.name = m := by
  rw [Term.eq, I.holds_eq, ht]
  rfl

/-- The three cases of a RAM page: not selected, read and written. -/
theorem ram_cases_iff {I : Interpretation} (r : Ram) {c : Cpu} {m : Cells} {page : Nat}
    (hpage : page < 2) (rom : Cartridge.Rom) {select address write data before : Term}
    {next : Symbol} (hselect : I.denote select = .bits 1 (c.selects page))
    (haddress : I.denote address = .bits 16 c.addressBus)
    (hwrite : I.denote write = .bits 1 c.writeEnable) (hdata : I.denote data = .bits 8 c.dataOut)
    (hbefore : I.denote before = .array 11 8 m)
    (hkind : (I.denote (.symbol next)).kind = .array 11 8) (out : Symbol) :
    (I.Holds (.implies (.not (.eq select (.bit true)))
        (.all [r.unchanged (.symbol next) before, .eq (.symbol out) (.word 8 0)])) ∧
      I.Holds (.implies (.all [.eq select (.bit true), .not (.eq write (.bit true))])
        (.all [r.unchanged (.symbol next) before,
          .eq (.symbol out) (.select before (.extract (ramBits - 1) 0 address))])) ∧
      I.Holds (.implies (.all [.eq select (.bit true), .eq write (.bit true)])
        (.all [r.stored (.symbol next) before (.extract (ramBits - 1) 0 address) data,
          .eq (.symbol out) data]))) ↔
    I next.name = .array 11 8 (c.storePage page m) ∧
      I out.name = .bits 8 (c.answer rom page m) := by
  have hwindow : I.denote (.extract (ramBits - 1) 0 address) =
      .bits 11 (c.addressBus.setWidth 11) := by
    rw [Interpretation.denote_extract (by decide) (by decide) haddress,
      BitVec.setWidth_eq_extractLsb' (by decide)]
    rfl
  have hselected := (holds_bit hselect).trans selects_eq_one
  have hwriting := holds_bit hwrite
  have hsame : I.Holds (r.unchanged (.symbol next) before) ↔ I next.name = .array 11 8 m :=
    holds_unchanged r hkind hbefore
  have hstored : I.Holds (r.stored (.symbol next) before _ data) ↔ I next.name = _ :=
    holds_stored r hkind hbefore hwindow hdata
  have hzero := holds_symbol (I := I) (x := out) (I.denote_word 8 0)
  have hcell := holds_symbol (x := out) (Interpretation.denote_select hbefore hwindow)
  have hecho := holds_symbol (x := out) hdata
  simp only [Term.implies, I.holds_implies, Term.not, I.holds_not, Interpretation.holds_all,
    List.forall_mem_cons, List.not_mem_nil, false_imp_iff, implies_true, and_true, hselected,
    hwriting, hsame, hstored, hzero, hcell, hecho]
  unfold Cpu.storePage Cpu.answer
  by_cases hp : c.page = page
  · by_cases hw : c.writeEnable = 1
    · simp only [hpage, hp, hw, not_true_eq_false, false_imp_iff, and_false, true_imp_iff, and_self,
        true_and, if_true]
    · simp only [hpage, hp, hw, not_true_eq_false, false_imp_iff, not_false_eq_true, and_false,
        true_imp_iff, and_self, true_and, and_true, if_true, if_false]
  · simp only [hpage, hp, not_false_eq_true, true_imp_iff, false_and, false_imp_iff, and_true,
      if_true, if_false]
    rfl

/-- The bytes of a ROM as an array. -/
def content (rom : Cartridge.Rom) : Meaning :=
  .array (Nat.log2 rom.prg.size) 8 fun i => (Bytes.get rom.prg i.toNat).toBitVec

/-- What a page gets: the signals of the processor, RAM and the ROM. -/
structure HandlerInputs (rom : Cartridge.Rom) (page : Fin 16) (s : Cpu × Cells) (e : Valuation) :
    Prop where
  signals : PageInputs e s.1 page
  ram : page.val < 2 → e Wire.ram.name = .array 11 8 (s.1.before page s.2)
  prg : e Wire.prg.name = content rom

/-- What a page gives: its answer and RAM, if it is a page of RAM. -/
structure HandlerOutputs (rom : Cartridge.Rom) (page : Fin 16) (s : Cpu × Cells) (e : Valuation) :
    Prop where
  answer : e (Wire.answer page).name = .bits 8 (s.1.answer rom page (s.1.before page s.2))
  ram : page.val < 2 → e Wire.ram.name = .array 11 8 (s.1.storePage page (s.1.before page s.2))

/-- The wires that a page writes. -/
def writesOf (page : Fin 16) : List Wire :=
  if page.val < 2 then [.ram, .answer page] else [.answer page]

/-- A handler does the work of a page. -/
structure Serves (rom : Cartridge.Rom) (page : Fin 16) (h : PageHandler) : Prop where
  stem : h.stem = Wire.stem page
  reads : ∀ x ∈ h.block.reads, ∃ w ∈ Wire.ram :: Wire.prg :: Wire.inputs page, x = w.name
  writes : h.block.writes = (writesOf page).map Wire.name
  meaning : h.block.Says (HandlerInputs rom page) fun s _ e' => HandlerOutputs rom page s e'

theorem declared_array {I : Interpretation} {f : Formula} {x : Symbol} (a d : Nat)
    (fits : I.Fits f.signature) (ha : a < 2 ^ 64) (hd : d < 2 ^ 64)
    (h : .declareArray x ⟨a.toUInt64⟩ ⟨d.toUInt64⟩ ∈ f) : (I x.name).kind = .array a d := by
  have ha' : a.toUInt64.toNat = a := by simpa using ha
  have hd' : d.toUInt64.toNat = d := by simpa using hd
  refine fits _ _ (List.mem_filterMap.2 ⟨_, h, ?_⟩)
  simp only [Command.declared?, ha', hd']

theorem denote_read {I : Interpretation} {ρ : String → Symbol} (ws : List Wire) (w : Wire)
    (hw : w ∈ ws) :
    I.denote ((Binding.of (ws.map Wire.name) ρ).term w.name) = I (ρ w.name).name := by
  rw [Binding.term_of (List.mem_map_of_mem hw)]
  rfl

theorem symbol_write {ω : String → Symbol} (ws : List Wire) (w : Wire) (hw : w ∈ ws) :
    (Binding.of (ws.map Wire.name) ω).symbol w.name = ω w.name :=
  Binding.symbol_of (List.mem_map_of_mem hw)

theorem serves_ram (r : Ram) (rom : Cartridge.Rom) (page : Fin 16) (hpage : page.val < 2) :
    Serves rom page (r.handler page.val) where
  stem := rfl
  reads := by
    simp only [Ram.handler, List.forall_mem_cons]
    exact ⟨⟨.select page, by simp [Wire.inputs], rfl⟩, ⟨.address page, by simp [Wire.inputs], rfl⟩,
      ⟨.write page, by simp [Wire.inputs], rfl⟩, ⟨.data page, by simp [Wire.inputs], rfl⟩,
      ⟨.ram, by simp, rfl⟩, by simp⟩
  writes := by
    rw [writesOf, if_pos hpage]
    rfl
  meaning := by
    refine ⟨fun _ _ => rfl, fun ρ ω => ⟨_, rfl, fun s I fits h => ?_⟩⟩
    let ws : List Wire := [.select page, .address page, .write page, .data page, .ram]
    let out := Binding.of ([.ram, .answer page].map Wire.name) ω
    have hnext : out.symbol Wire.ram.name = ω Wire.ram.name := symbol_write _ _ (by simp)
    have hout : out.symbol (Wire.answer page).name = ω (Wire.answer page).name :=
      symbol_write _ _ (by simp)
    have hkind : (I (out.symbol Wire.ram.name).name).kind = .array 11 8 :=
      declared_array 11 8 fits (by decide) (by decide) (List.mem_cons_of_mem _ List.mem_cons_self)
    have hcases := ram_cases_iff r hpage rom
      ((denote_read ws (.select page) (by simp [ws])).trans h.signals.select)
      ((denote_read ws (.address page) (by simp [ws])).trans h.signals.address)
      ((denote_read ws (.write page) (by simp [ws])).trans h.signals.write)
      ((denote_read ws (.data page) (by simp [ws])).trans h.signals.data)
      ((denote_read ws .ram (by simp [ws])).trans (h.ram hpage)) hkind
      (out.symbol (Wire.answer page).name)
    refine Iff.trans ?_ (hcases.trans ?_)
    · simp only [Interpretation.satisfies_note, Ram.declareMemory, declare,
        Interpretation.satisfies_declareArray, Interpretation.satisfies_declareBits,
        Interpretation.satisfies_assert, Interpretation.satisfies_nil, and_true]
      rfl
    · rw [hnext, hout]
      exact ⟨fun h' => ⟨h'.2, fun _ => h'.1⟩, fun h' => ⟨h'.ram hpage, h'.answer⟩⟩

theorem serves_null (rom : Cartridge.Rom) (page : Fin 16) (hlow : 2 ≤ page.val)
    (hhigh : page.val < 8) : Serves rom page (nullHandler page.val) where
  stem := rfl
  reads := by simp [nullHandler]
  writes := by
    rw [writesOf, if_neg (Nat.not_lt.2 hlow)]
    rfl
  meaning := by
    refine ⟨fun _ _ => rfl, fun ρ ω => ⟨_, rfl, fun s I fits h => ?_⟩⟩
    have hout : Binding.symbol (.of ([.answer page].map Wire.name) ω) (Wire.answer page).name =
      ω (Wire.answer page).name := symbol_write _ _ (by simp)
    have hanswer : s.1.answer rom page (s.1.before page s.2) = 0 := by
      rw [Cpu.answer, if_neg (Nat.not_lt.2 hlow), if_pos hhigh]
    have hzero := holds_symbol (I := I) (x := ω (Wire.answer page).name) (I.denote_word 8 0)
    rw [← hout] at hzero
    simp only [declare, Interpretation.satisfies_declareBits, Interpretation.satisfies_assert,
      Interpretation.satisfies_nil, and_true]
    refine hzero.trans ?_
    rw [hout]
    exact ⟨fun hbits => ⟨hbits.trans (by rw [hanswer]; rfl), fun hram => absurd hram (by omega)⟩,
      fun h' => h'.answer.trans (by rw [hanswer]; rfl)⟩

/-- A mapper of a ROM of one or two banks. -/
structure MapsTo (m : Cartridge.Mapper) (rom : Cartridge.Rom) : Prop where
  source : m.rom = rom
  addressBits : m.addressBits = Nat.log2 rom.prg.size
  size : rom.prg.size = 2 ^ m.addressBits
  one_le : 1 ≤ m.addressBits
  le : m.addressBits ≤ 15

theorem mapsTo_of_ofRom {rom : Cartridge.Rom} {m : Cartridge.Mapper}
    (h : Cartridge.Mapper.ofRom rom = .ok m) : MapsTo m rom := by
  have hbank : 14 = Nat.log2 Cartridge.bankSize := by decide
  have hbanks : 15 = Nat.log2 (2 * Cartridge.bankSize) := by decide
  unfold Cartridge.Mapper.ofRom at h
  split_ifs at h with _ hone htwo
  · cases h
    exact ⟨rfl, by rw [hone, ← hbank], hone, by simp, by simp⟩
  · cases h
    exact ⟨rfl, by rw [htwo, ← hbanks], htwo, by simp, by simp⟩

theorem MapsTo.size_dvd {m : Cartridge.Mapper} {rom : Cartridge.Rom} (hm : MapsTo m rom) :
    rom.prg.size ∣ 0x8000 := by
  rw [hm.size]
  exact Nat.pow_dvd_pow 2 hm.le

theorem areaOfPage_eq (page : Fin 16) : areaOfPage page.val =
    if page.val < 2 then .ram else if page.val < 8 then .null else .cartridge := by
  revert page
  decide

/-- What a page of the cartridge uses: the address and the ROM. -/
structure Lookup (rom : Cartridge.Rom) (page : Fin 16) (a : BitVec 16) (e : Valuation) : Prop where
  address : e (Wire.address page).name = .bits 16 a
  prg : e Wire.prg.name = content rom

/-- The byte of a ROM that an address reads. -/
def romByte (rom : Cartridge.Rom) (a : BitVec 16) : BitVec 8 :=
  (Bytes.get rom.prg (a.toNat % rom.prg.size)).toBitVec

/-- A page of the cartridge answers with the byte of the ROM at the address. -/
theorem exists_romHandler {m : Cartridge.Mapper} {rom : Cartridge.Rom} (hm : MapsTo m rom)
    (page : Fin 16) (hpage : 8 ≤ page.val) : ∃ h, m.handler? page.val = some h ∧
      h.stem = Wire.stem page ∧ h.block.reads = [Wire.address page, .prg].map Wire.name ∧
      h.block.writes = [Wire.answer page].map Wire.name ∧
      h.block.Says (Lookup rom page) fun a _ e' =>
        e' (Wire.answer page).name = .bits 8 (romByte rom a) := by
  have harea : areaOfPage page.val = .cartridge := by
    rw [areaOfPage_eq, if_neg (by omega), if_neg (by omega)]
  unfold Cartridge.Mapper.handler?
  rw [if_neg (not_not.2 harea)]
  refine ⟨_, rfl, rfl, rfl, rfl, fun _ _ => rfl, fun ρ ω => ⟨_, rfl, fun a I fits h => ?_⟩⟩
  let ws : List Wire := [.address page, .prg]
  have hout : Binding.symbol (.of ([.answer page].map Wire.name) ω) (Wire.answer page).name =
    ω (Wire.answer page).name := symbol_write _ _ (by simp)
  have haddress := (denote_read ws (.address page) (by simp [ws])).trans h.address
  have hprg := (denote_read ws .prg (by simp [ws])).trans h.prg
  have hoffset : I.denote (.extract (m.addressBits - 1) 0
      ((Binding.of (ws.map Wire.name) ρ).term (Wire.address page).name)) =
        .bits (Nat.log2 rom.prg.size) (a.setWidth _) := by
    have hle := hm.le
    have hone := hm.one_le
    rw [Interpretation.denote_extract (by omega) (by omega) haddress]
    refine Meaning.bits_congr (by rw [← hm.addressBits]; omega) ?_
    rw [BitVec.extractLsb'_toNat, BitVec.toNat_setWidth, ← hm.addressBits, Nat.shiftRight_zero,
      Nat.sub_zero, Nat.sub_add_cancel hone]
  have hbyte : romByte rom a =
      (Bytes.get rom.prg (a.setWidth (Nat.log2 rom.prg.size)).toNat).toBitVec := by
    rw [romByte, BitVec.toNat_setWidth, ← hm.addressBits, ← hm.size]
  have hread := holds_symbol (x := ω (Wire.answer page).name)
    (Interpretation.denote_select hprg hoffset)
  rw [← hout] at hread
  simp only [declare, Interpretation.satisfies_declareBits, Interpretation.satisfies_assert,
    Interpretation.satisfies_nil, and_true]
  refine hread.trans ?_
  rw [hout, hbyte]

theorem serves_rom {m : Cartridge.Mapper} {rom : Cartridge.Rom} (hm : MapsTo m rom) (page : Fin 16)
    (hpage : 8 ≤ page.val) : ∃ h, m.handler? page.val = some h ∧ Serves rom page h := by
  have hram : ¬ page.val < 2 := by omega
  have hnull : ¬ page.val < 8 := by omega
  obtain ⟨h, hh, hstem, hreads, hwrites, hsays⟩ := exists_romHandler hm page hpage
  refine ⟨h, hh, hstem, ?_, ?_, hsays.keeps, fun ρ ω => ?_⟩
  · rw [hreads]
    simp only [List.map_cons, List.map_nil, List.forall_mem_cons]
    exact ⟨⟨.address page, by simp [Wire.inputs], rfl⟩, ⟨.prg, by simp, rfl⟩, by simp⟩
  · rw [hwrites, writesOf, if_neg hram]
  · obtain ⟨f, hgen, hf⟩ := hsays.means ρ ω
    refine ⟨f, hgen, fun s I fits h => ?_⟩
    refine (hf s.1.addressBus I fits ⟨h.signals.address, h.prg⟩).trans ?_
    have hanswer : s.1.answer rom page (s.1.before page s.2) = romByte rom s.1.addressBus := by
      rw [Cpu.answer, if_neg hram, if_neg hnull, romByte]
    exact ⟨fun hbits => ⟨hbits.trans (by rw [hanswer]), fun hlt => absurd hlt hram⟩,
      fun h' => h'.answer.trans (by rw [hanswer])⟩

/-- The handlers of a machine do the work of their pages. -/
theorem exists_handlerOf (r : Ram) {m : Cartridge.Mapper} {rom : Cartridge.Rom} (hm : MapsTo m rom)
    (page : Fin 16) : ∃ h, Machine.handlerOf r m page = .ok h ∧ Serves rom page h := by
  unfold Machine.handlerOf
  by_cases hram : page.val < 2
  · rw [show areaOfPage page.val = .ram by rw [areaOfPage_eq, if_pos hram]]
    exact ⟨_, rfl, serves_ram r rom page hram⟩
  by_cases hnull : page.val < 8
  · rw [show areaOfPage page.val = .null by rw [areaOfPage_eq, if_neg hram, if_pos hnull]]
    exact ⟨_, rfl, serves_null rom page (by omega) hnull⟩
  · obtain ⟨h, hh, hserves⟩ := serves_rom hm page (by omega)
    rw [show areaOfPage page.val = .cartridge by rw [areaOfPage_eq, if_neg hram, if_neg hnull]]
    simp only [hh]
    exact ⟨h, rfl, hserves⟩

/-- Where the handler of a page comes from. -/
theorem handlerOf_cases {r : Ram} {m : Cartridge.Mapper} {page : Fin 16} {h : PageHandler}
    (hh : Machine.handlerOf r m page = .ok h) :
    (page.val < 2 ∧ h = r.handler page) ∨
      (2 ≤ page.val ∧ page.val < 8 ∧ h = nullHandler page) ∨
        (8 ≤ page.val ∧ m.handler? page = some h) := by
  unfold Machine.handlerOf at hh
  by_cases hram : page.val < 2
  · rw [show areaOfPage page.val = .ram by rw [areaOfPage_eq, if_pos hram]] at hh
    cases hh
    exact .inl ⟨hram, rfl⟩
  by_cases hnull : page.val < 8
  · rw [show areaOfPage page.val = .null by rw [areaOfPage_eq, if_neg hram, if_pos hnull]] at hh
    cases hh
    exact .inr (.inl ⟨Nat.le_of_not_lt hram, hnull, rfl⟩)
  · rw [show areaOfPage page.val = .cartridge by
      rw [areaOfPage_eq, if_neg hram, if_neg hnull]] at hh
    cases hmapped : m.handler? page.val with
    | none =>
      rw [hmapped] at hh
      cases hh
    | some h' =>
      rw [hmapped] at hh
      cases hh
      exact .inr (.inr ⟨Nat.le_of_not_lt hnull, rfl⟩)

end CycleCheck.Cycle
