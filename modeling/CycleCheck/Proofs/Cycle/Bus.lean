import CycleCheck.Proofs.Cycle.Memory
import CycleCheck.Proofs.Cycle.Processor
import Mathlib.Data.Fintype.Basic
import Mathlib.Tactic.FinCases

/-!
The two halves of a bus phase. The front half gives every page the signals of the processor and
selects the addressed page; one page is selected, so the back half takes its answer.
-/

namespace CycleCheck.Cycle

open Processor Memory

/-- The slots of the sixteen pages. -/
def pageSlots : List Slot := (List.finRange 16).map fun page => ⟨page.val, Wire.stem page⟩

/-! ## The front half -/

theorem number_eq (page : Fin 16) :
    Term.bits (Int64.ofInt page.val).toUInt64 4 = .ok (.word 4 page.val) := by
  fin_cases page <;> rfl

theorem extractLsb'_page (c : Cpu) (page : Fin 16) :
    c.addressBus.extractLsb' 12 4 = .ofNat 4 page.val ↔ c.page = page := by
  have hpage : (c.addressBus.extractLsb' 12 4).toNat = c.page := by
    rw [BitVec.extractLsb'_toNat, Nat.shiftRight_eq_div_pow, Cpu.page]
    omega
  rw [← BitVec.toNat_inj, hpage, BitVec.toNat_ofNat, Nat.mod_eq_of_lt page.isLt]

theorem denote_select_line {I : Interpretation} {bus : Term} {c : Cpu}
    (hbus : I.denote bus = .bits 16 c.addressBus) (page : Fin 16) :
    I.denote (.ite (.eq (.extract 15 12 bus) (.word 4 page.val)) (.bit true) (.bit false)) =
      .bits 1 (c.selects page) := by
  rw [Interpretation.denote_ite_eq (Interpretation.denote_extract (by decide) (by decide) hbus)
    (I.denote_word 4 _), I.denote_bit, I.denote_bit, Cpu.selects]
  change (if c.addressBus.extractLsb' 12 4 = .ofNat 4 page.val then _ else _) = _
  by_cases hpage : c.page = page
  · rw [if_pos ((extractLsb'_page c page).2 hpage), beq_iff_eq.2 hpage]
  · rw [if_neg fun h => hpage ((extractLsb'_page c page).1 h), beq_eq_false_iff_ne.2 hpage]

/-- The commands of the front half for a slot. -/
def slotCommands (inp out : Binding) (s : Slot) : Formula :=
  [declare (out.symbol (Slot.chipSelect s.stem)) 1, declare (out.symbol (Slot.address s.stem)) 16,
    declare (out.symbol (Slot.writeEnable s.stem)) 1, declare (out.symbol (Slot.dataIn s.stem)) 8,
    .assert (.eq (.symbol (out.symbol (Slot.chipSelect s.stem)))
      (.ite (.eq (.extract 15 12 (inp.term Variable.addressBus.name)) (.word 4 s.page.toNat))
        (.bit true) (.bit false))),
    .assert (.eq (.symbol (out.symbol (Slot.address s.stem)))
      (inp.term Variable.addressBus.name)),
    .assert (.eq (.symbol (out.symbol (Slot.writeEnable s.stem)))
      (inp.term Variable.writeEnable.name)),
    .assert (.eq (.symbol (out.symbol (Slot.dataIn s.stem))) (inp.term Variable.dataOut.name))]

/-- The front half goes through the slots, if they are on the sixteen pages. -/
theorem generate_frontHalf_slots {slots : List Slot}
    (pages : ∀ s ∈ slots, ∃ page : Fin 16, s.page = page.val) (inp out : Binding) :
    (frontHalf slots).generate inp out =
      .ok (.note "bus front half" :: (slots.map (slotCommands inp out)).flatten) := by
  simp only [frontHalf]
  rw [mapM_eq_ok (g := slotCommands inp out)]
  · rfl
  · intro s hs
    obtain ⟨page, hpage⟩ := pages s hs
    rw [slotCommands, hpage, number_eq]
    rfl

theorem satisfies_slotCommands {I : Interpretation} {c : Cpu} {inp out : Binding}
    (hbus : I.denote (inp.term Variable.addressBus.name) = .bits 16 c.addressBus)
    (hwrite : I.denote (inp.term Variable.writeEnable.name) = .bits 1 c.writeEnable)
    (hdata : I.denote (inp.term Variable.dataOut.name) = .bits 8 c.dataOut) {s : Slot}
    {page : Fin 16} (hpage : s.page = page.val) :
    I.Satisfies (slotCommands inp out s) ↔
      I (out.symbol (Slot.chipSelect s.stem)).name = .bits 1 (c.selects page) ∧
      I (out.symbol (Slot.address s.stem)).name = .bits 16 c.addressBus ∧
      I (out.symbol (Slot.writeEnable s.stem)).name = .bits 1 c.writeEnable ∧
      I (out.symbol (Slot.dataIn s.stem)).name = .bits 8 c.dataOut := by
  have hnumber : s.page.toNat = page.val := by rw [hpage, Int.toNat_natCast]
  simp only [slotCommands, declare, Interpretation.satisfies_declareBits,
    Interpretation.satisfies_assert, Interpretation.satisfies_nil, and_true, hnumber,
    holds_symbol (denote_select_line hbus page), holds_symbol hbus, holds_symbol hwrite,
    holds_symbol hdata]

/-- The wires of the front half. -/
def frontWires : List Wire := (List.finRange 16).flatMap Wire.inputs

theorem writes_frontHalf : (frontHalf pageSlots).writes = frontWires.map Wire.name := by
  simp only [frontHalf, pageSlots, frontWires, List.map_flatMap, List.flatMap_map]
  rfl

theorem mem_frontWires {page : Fin 16} {w : Wire} (hw : w ∈ Wire.inputs page) : w ∈ frontWires :=
  List.mem_flatMap.2 ⟨page, List.mem_finRange page, hw⟩

/-- The commands of the front half for a page. -/
def pageCommands (inp out : Binding) (page : Fin 16) : Formula :=
  [declare (out.symbol (Wire.select page).name) 1, declare (out.symbol (Wire.address page).name) 16,
    declare (out.symbol (Wire.write page).name) 1, declare (out.symbol (Wire.data page).name) 8,
    .assert (.eq (.symbol (out.symbol (Wire.select page).name))
      (.ite (.eq (.extract 15 12 (inp.term Variable.addressBus.name)) (.word 4 page.val))
        (.bit true) (.bit false))),
    .assert (.eq (.symbol (out.symbol (Wire.address page).name))
      (inp.term Variable.addressBus.name)),
    .assert (.eq (.symbol (out.symbol (Wire.write page).name))
      (inp.term Variable.writeEnable.name)),
    .assert (.eq (.symbol (out.symbol (Wire.data page).name)) (inp.term Variable.dataOut.name))]

theorem generate_frontHalf (inp out : Binding) : (frontHalf pageSlots).generate inp out =
    .ok (.note "bus front half" :: ((List.finRange 16).map (pageCommands inp out)).flatten) := by
  have hpages : ∀ s ∈ pageSlots, ∃ page : Fin 16, s.page = page.val := by
    rw [pageSlots, List.forall_mem_map]
    exact fun page _ => ⟨page, rfl⟩
  rw [generate_frontHalf_slots hpages, pageSlots, List.map_map]
  rfl

theorem satisfies_pageCommands {I : Interpretation} {c : Cpu} {inp : Binding} {ω : String → Symbol}
    (hbus : I.denote (inp.term Variable.addressBus.name) = .bits 16 c.addressBus)
    (hwrite : I.denote (inp.term Variable.writeEnable.name) = .bits 1 c.writeEnable)
    (hdata : I.denote (inp.term Variable.dataOut.name) = .bits 8 c.dataOut) (page : Fin 16) :
    I.Satisfies (pageCommands inp (.of (frontWires.map Wire.name) ω) page) ↔
      PageInputs (fun x => I (ω x).name) c page := by
  have hout : ∀ w ∈ Wire.inputs page,
      (Binding.of (frontWires.map Wire.name) ω).symbol w.name = ω w.name :=
    fun w hw => symbol_write _ _ (mem_frontWires hw)
  simp only [Wire.inputs, List.forall_mem_cons] at hout
  obtain ⟨hselect', haddress', hwrite', hdata', -⟩ := hout
  refine (satisfies_slotCommands hbus hwrite hdata (s := ⟨page.val, Wire.stem page⟩) rfl).trans ?_
  change I (Binding.symbol _ (Wire.select page).name).name = _ ∧
    I (Binding.symbol _ (Wire.address page).name).name = _ ∧
    I (Binding.symbol _ (Wire.write page).name).name = _ ∧
    I (Binding.symbol _ (Wire.data page).name).name = _ ↔ _
  rw [hselect', haddress', hwrite', hdata']
  exact ⟨fun h => ⟨h.1, h.2.1, h.2.2.1, h.2.2.2⟩, fun h => ⟨h.select, h.address, h.write, h.data⟩⟩

/-- The signals of the processor to the bus. -/
structure ShowsBus (e : Valuation) (c : Cpu) : Prop where
  addressBus : e Variable.addressBus.name = .bits 16 c.addressBus
  writeEnable : e Variable.writeEnable.name = .bits 1 c.writeEnable
  dataOut : e Variable.dataOut.name = .bits 8 c.dataOut

theorem ShowsCpu.bus {e : Valuation} {c : Cpu} (h : ShowsCpu e c) : ShowsBus e c :=
  ⟨h .addressBus (by decide), h .writeEnable (by decide), h .dataOut (by decide)⟩

theorem frontHalf_means : (frontHalf pageSlots).Says (fun c e => ShowsBus e c)
    (fun c _ e' => ∀ page, PageInputs e' c page) := by
  refine ⟨fun _ _ => rfl, fun ρ ω => ?_⟩
  rw [writes_frontHalf, generate_frontHalf]
  refine ⟨_, rfl, fun c I fits h => ?_⟩
  let ws : List Wire := [.cpu .addressBus, .cpu .writeEnable, .cpu .dataOut]
  have hbus := (denote_read ws (.cpu .addressBus) (by simp [ws])).trans h.addressBus
  have hwrite := (denote_read ws (.cpu .writeEnable) (by simp [ws])).trans h.writeEnable
  have hdata := (denote_read ws (.cpu .dataOut) (by simp [ws])).trans h.dataOut
  rw [Interpretation.satisfies_note, Interpretation.satisfies_flatten, List.forall_mem_map]
  have hpages := fun page => satisfies_pageCommands (ω := ω) hbus hwrite hdata page
  exact ⟨fun hall page => (hpages page).1 (hall page (List.mem_finRange page)),
    fun hall page _ => (hpages page).2 (hall page)⟩

/-! ## The back half -/

/-- A slot that is selected gives the data. -/
theorem holds_selected {I : Interpretation} {select answer : Term} {x : Symbol} {b : BitVec 1}
    {m : Meaning} (hselect : I.denote select = .bits 1 b) (hanswer : I.denote answer = m) :
    I.Holds (.implies (.eq select (.bit true)) (.eq (.symbol x) answer)) ↔
      (b = 1 → I x.name = m) := by
  rw [Term.implies, I.holds_implies]
  exact imp_congr (holds_bit hselect) (holds_symbol hanswer)

theorem reads_backHalf : (backHalf pageSlots).reads =
    ((List.finRange 16).flatMap fun page => [Wire.select page, .answer page]).map Wire.name := by
  simp only [backHalf, pageSlots, List.map_flatMap, List.flatMap_map]
  rfl

/-- The data of the processor is the answer of the selected page. -/
theorem backHalf_means (answers : Cpu × Cells → Fin 16 → BitVec 8) : (backHalf pageSlots).Says
    (fun s e => ∀ page, e (Wire.select page).name = .bits 1 (s.1.selects page) ∧
      e (Wire.answer page).name = .bits 8 (answers s page))
    (fun s _ e' => ∀ page : Fin 16, s.1.page = page →
      e' Variable.dataIn.name = .bits 8 (answers s page)) := by
  refine ⟨fun _ _ => rfl, fun ρ ω => ?_⟩
  rw [reads_backHalf]
  refine ⟨_, rfl, fun s I fits h => ?_⟩
  have hread : ∀ page : Fin 16, ∀ w ∈ [Wire.select page, .answer page],
      w ∈ (List.finRange 16).flatMap fun page => [Wire.select page, .answer page] :=
    fun page w hw => List.mem_flatMap.2 ⟨page, List.mem_finRange page, hw⟩
  have hselect := fun page =>
    (denote_read _ _ (hread page (.select page) (by simp))).trans (h page).1
  have hanswer := fun page =>
    (denote_read _ _ (hread page (.answer page) (by simp))).trans (h page).2
  have hout : Binding.symbol (.of ([.cpu .dataIn].map Wire.name) ω) (Wire.cpu .dataIn).name =
    ω Variable.dataIn.name := symbol_write _ _ (by simp)
  rw [Interpretation.satisfies_note, declare, Interpretation.satisfies_declareBits,
    Interpretation.satisfies_map_assert, pageSlots, List.forall_mem_map]
  refine forall_congr' fun page => ?_
  rw [imp_iff_right (List.mem_finRange page)]
  refine (holds_selected (hselect page) (hanswer page)).trans (imp_congr selects_eq_one ?_)
  exact iff_of_eq (congrArg (fun x : Symbol => I x.name = _) hout)

end CycleCheck.Cycle
