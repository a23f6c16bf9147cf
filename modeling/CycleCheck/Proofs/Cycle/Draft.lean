import CycleCheck.Proofs.Cycle.Transition
import CycleCheck.Proofs.Term.Build

/-!
Terms of the processor beside words. A draft gives outputs if every variable of it means the word
of that output; the parts that rules are made of change drafts as the parts of transitions change
outputs.
-/

namespace CycleCheck.Cycle

open Processor

/-! ## Codes of micro-states -/

theorem width_states : Processor.standard.states.width = 7 := by decide +kernel

/-- The code of a micro-state that the formula uses is its code here. -/
theorem literal_eq {m : MicroState} (h : m ∈ microStates) :
    Processor.standard.states.literal m.name = .ok (.word 7 (microStates.idxOf m)) := by
  have hlt := List.idxOf_lt_length_of_mem h
  have hfind : Processor.standard.states.index? m.name = some (microStates.idxOf m) := by
    change ((microStates.map MicroState.name).toArray).findIdx? (· == m.name) = _
    rw [List.findIdx?_toArray, List.findIdx?_eq_some_iff_getElem]
    refine ⟨by simpa using hlt, by simp, fun j hj => ?_⟩
    simp only [List.getElem_map, beq_iff_eq]
    intro hname
    have hinj := List.inj_on_of_nodup_map nodup_names (List.getElem_mem _) h hname
    have hidx : microStates.idxOf m = j := by
      rw [← hinj]
      exact nodup_microStates.idxOf_getElem _ _
    omega
  rw [MicroStates.literal, hfind, width_states]

/-! ## Drafts -/

/-- The word of a variable. -/
def signal (c : Cpu) (d : BitVec 8) : Variable → Meaning
  | .a => .bits 8 c.a
  | .x => .bits 8 c.x
  | .y => .bits 8 c.y
  | .sp => .bits 8 c.sp
  | .p => .bits 8 c.p
  | .pc => .bits 16 c.pc
  | .state => .bits 7 c.state
  | .resetSequence => .bits 3 c.resetSequence
  | .addressBus => .bits 16 c.addressBus
  | .writeEnable => .bits 1 c.writeEnable
  | .dataOut => .bits 8 c.dataOut
  | .tempAddress => .bits 16 c.tempAddress
  | .tempPointer => .bits 8 c.tempPointer
  | .dataIn => .bits 8 d

/-- The terms of a draft mean outputs and the byte on the data bus. -/
def Gives (I : Interpretation) (t : Draft) (c : Cpu) (d : BitVec 8) : Prop :=
  ∀ v, I.denote (t v) = signal c d v

namespace Gives

variable {I : Interpretation} {t inp : Draft} {c c' : Cpu} {d : BitVec 8}

theorem set (h : Gives I t c d) (v : Variable) {u : Term} (hu : I.denote u = signal c' d v)
    (hsame : ∀ w, w ≠ v → signal c' d w = signal c d w) : Gives I (t.set v u) c' d := by
  intro w
  unfold Draft.set
  split_ifs with hw
  · rw [hw, hu]
  · rw [h w, hsame w hw]

/-! Outputs that differ in one field agree in the other signals. -/

theorem set_state (h : Gives I t c d) (m : MicroState) :
    Gives I (t.set .state (.word 7 (microStates.idxOf m))) (c.goto m) d :=
  h.set .state (I.denote_word _ _) fun w hw => by cases w <;> first | rfl | exact absurd rfl hw

theorem set_p (h : Gives I t c d) {u : Term} {p : BitVec 8} (hu : I.denote u = .bits 8 p) :
    Gives I (t.set .p u) { c with p } d :=
  h.set .p hu fun w hw => by cases w <;> first | rfl | exact absurd rfl hw

theorem set_pc (h : Gives I t c d) {u : Term} {pc : BitVec 16} (hu : I.denote u = .bits 16 pc) :
    Gives I (t.set .pc u) { c with pc } d :=
  h.set .pc hu fun w hw => by cases w <;> first | rfl | exact absurd rfl hw

theorem set_sp (h : Gives I t c d) {u : Term} {sp : BitVec 8} (hu : I.denote u = .bits 8 sp) :
    Gives I (t.set .sp u) { c with sp } d :=
  h.set .sp hu fun w hw => by cases w <;> first | rfl | exact absurd rfl hw

theorem set_resetSequence (h : Gives I t c d) {u : Term} {resetSequence : BitVec 3}
    (hu : I.denote u = .bits 3 resetSequence) :
    Gives I (t.set .resetSequence u) { c with resetSequence } d :=
  h.set .resetSequence hu fun w hw => by cases w <;> first | rfl | exact absurd rfl hw

theorem set_tempAddress (h : Gives I t c d) {u : Term} {tempAddress : BitVec 16}
    (hu : I.denote u = .bits 16 tempAddress) :
    Gives I (t.set .tempAddress u) { c with tempAddress } d :=
  h.set .tempAddress hu fun w hw => by cases w <;> first | rfl | exact absurd rfl hw

theorem set_tempPointer (h : Gives I t c d) {u : Term} {tempPointer : BitVec 8}
    (hu : I.denote u = .bits 8 tempPointer) :
    Gives I (t.set .tempPointer u) { c with tempPointer } d :=
  h.set .tempPointer hu fun w hw => by cases w <;> first | rfl | exact absurd rfl hw

theorem set_addressBus (h : Gives I t c d) {u : Term} {addressBus : BitVec 16}
    (hu : I.denote u = .bits 16 addressBus) :
    Gives I (t.set .addressBus u) { c with addressBus } d :=
  h.set .addressBus hu fun w hw => by cases w <;> first | rfl | exact absurd rfl hw

theorem set_writeEnable (h : Gives I t c d) (b : Bool) :
    Gives I (t.set .writeEnable (.bit b)) { c with writeEnable := .ofBool b } d :=
  h.set .writeEnable (I.denote_bit b) fun w hw => by
    cases w <;> first | rfl | exact absurd rfl hw

theorem set_dataOut (h : Gives I t c d) {u : Term} {dataOut : BitVec 8}
    (hu : I.denote u = .bits 8 dataOut) : Gives I (t.set .dataOut u) { c with dataOut } d :=
  h.set .dataOut hu fun w hw => by cases w <;> first | rfl | exact absurd rfl hw

/-! ## Parts of rules -/

theorem read (h : Gives I t c d) {u : Term} {address : BitVec 16}
    (hu : I.denote u = .bits 16 address) : Gives I (t.read u) (c.read address) d :=
  (h.set_addressBus hu).set_writeEnable false

theorem write (h : Gives I t c d) {u v : Term} {address : BitVec 16} {data : BitVec 8}
    (hu : I.denote u = .bits 16 address) (hv : I.denote v = .bits 8 data) :
    Gives I (t.write u v) (c.write address data) d :=
  ((h.set_addressBus hu).set_writeEnable true).set_dataOut hv

theorem fetch (h : Gives I t c d) (hinp : Gives I inp c' d) :
    Gives I (t.fetch inp) (c.read c'.pc) d :=
  h.read (hinp .pc)

theorem incrementPC (h : Gives I t c d) (hinp : Gives I inp c' d) :
    Gives I (t.incrementPC inp) { c with pc := c'.pc + 1 } d :=
  h.set_pc (Interpretation.denote_add (hinp .pc) (I.denote_word 16 1))

end Gives

section Terms

variable {I : Interpretation} {a b : Term} {v w : BitVec 8} {address : BitVec 16}

theorem denote_zeroPage (ha : I.denote a = .bits 8 v) :
    I.denote (zeroPage a) = .bits 16 (0#8 ++ v) :=
  Interpretation.denote_concat (I.denote_word 8 0) ha

theorem denote_lowByte (ha : I.denote a = .bits 16 address) :
    I.denote (lowByte a) = .bits 8 (address.setWidth 8) := by
  rw [lowByte, Interpretation.denote_extract (by decide) (by decide) ha]
  rw [BitVec.setWidth_eq_extractLsb' (by decide)]

/-- The sum of nine bits reaches bit 8 exactly if the sum of the bytes does. -/
theorem holds_carry (ha : I.denote a = .bits 8 v) (hb : I.denote b = .bits 8 w) :
    I.Holds (carry a b) ↔ 0x100 ≤ v.toNat + w.toNat := by
  have hsum := Interpretation.denote_add (Interpretation.denote_zeroExtend (n := 1) (by decide) ha)
    (Interpretation.denote_zeroExtend (by decide) hb)
  rw [carry, Interpretation.holds_uge hsum (I.denote_word 9 0x100)]
  have hv := v.isLt
  have hw := w.isLt
  have hbound : (v.toNat + w.toNat) % 512 = v.toNat + w.toNat := Nat.mod_eq_of_lt (by omega)
  simp only [BitVec.toNat_add, BitVec.toNat_setWidth, BitVec.toNat_ofNat]
  omega

end Terms

/-! ## Flags -/

/-- A byte put together from the bits above and below a bit, and the bit. -/
theorem append_around_bit (v : BitVec 8) (b : Bool) {n : Nat} (hn : n < 7) (hpos : 0 < n) :
    (v.extractLsb' (n + 1) (7 - (n + 1) + 1) ++
      (BitVec.ofBool b ++ v.extractLsb' 0 (n - 1 - 0 + 1))).toNat = (setBit v n b).toNat := by
  apply Nat.eq_of_testBit_eq
  intro i
  simp only [BitVec.testBit_toNat, getLsbD_setBit v (show n < 8 by omega), BitVec.getLsbD_append,
    BitVec.getLsbD_extractLsb', BitVec.getLsbD_ofBool]
  have hlow : n - 1 - 0 + 1 = n := by omega
  rw [hlow]
  rcases Nat.lt_trichotomy i n with hlt | rfl | hgt
  · have hne : i ≠ n := by omega
    have hbelow : i < 1 + n := by omega
    simp [hlt, hne, hbelow]
  · simp
  · have hne : i ≠ n := by omega
    have habove : ¬ i < 1 + n := by omega
    have hsum : n + 1 + (i - (1 + n)) = i := by omega
    by_cases h8 : i < 8
    · simp [hne, habove, hsum]
      omega
    · rw [BitVec.getLsbD_of_ge v i (by omega)]
      simp [hne, habove, hsum, BitVec.getLsbD_of_ge v i (by omega)]

theorem denote_withBit {I : Interpretation} {a u : Term} {v : BitVec 8} {b : Bool} (f : Flag)
    (ha : I.denote a = .bits 8 v) (hu : I.denote u = .bits 1 (.ofBool b)) :
    I.denote (withBit a f.bit u) = .bits 8 (setBit v f.bit b) := by
  have hpart : ∀ hi lo : Nat, hi < 8 → lo < 8 →
      I.denote (.extract hi lo a) = .bits (hi - lo + 1) (v.extractLsb' lo (hi - lo + 1)) :=
    fun hi lo hhi hlo => Interpretation.denote_extract (by omega) (by omega) ha
  have hmiddle : ∀ n : Nat, n < 7 → 0 < n →
      I.denote (.concat (.extract 7 (n + 1) a) (.concat u (.extract (n - 1) 0 a))) =
        .bits 8 (setBit v n b) := by
    intro n hn hpos
    rw [Interpretation.denote_concat (hpart 7 (n + 1) (by decide) (by omega))
      (Interpretation.denote_concat hu (hpart (n - 1) 0 (by omega) (by decide)))]
    exact Meaning.bits_congr (by omega) (append_around_bit v b hn hpos)
  cases f with
  | carry =>
    refine (Interpretation.denote_concat (hpart 7 1 (by decide) (by decide)) hu).trans
      (Meaning.bits_congr rfl (congrArg _ ?_))
    apply BitVec.eq_of_getLsbD_eq
    intro i hi
    simp only [getLsbD_setBit v (show Flag.carry.bit < 8 by decide), BitVec.getLsbD_append,
      BitVec.getLsbD_extractLsb', BitVec.getLsbD_ofBool]
    interval_cases i <;> simp [Flag.bit]
  | sign =>
    refine (Interpretation.denote_concat hu (hpart 6 0 (by decide) (by decide))).trans
      (Meaning.bits_congr rfl (congrArg _ ?_))
    apply BitVec.eq_of_getLsbD_eq
    intro i hi
    simp only [getLsbD_setBit v (show Flag.sign.bit < 8 by decide), BitVec.getLsbD_append,
      BitVec.getLsbD_extractLsb', BitVec.getLsbD_ofBool]
    interval_cases i <;> simp [Flag.bit]
  | zero => exact hmiddle 1 (by decide) (by decide)
  | interruptDisable => exact hmiddle 2 (by decide) (by decide)
  | decimalMode => exact hmiddle 3 (by decide) (by decide)
  | «break» => exact hmiddle 4 (by decide) (by decide)
  | overflow => exact hmiddle 6 (by decide) (by decide)

/-- The status after a load. -/
theorem denote_loadFlags {I : Interpretation} {a u : Term} {p v : BitVec 8}
    (ha : I.denote a = .bits 8 p) (hu : I.denote u = .bits 8 v) :
    I.denote (loadFlags a u) =
      .bits 8 (setBit (setBit p Flag.zero.bit (v == 0)) Flag.sign.bit v.msb) := by
  have hzero : I.denote (.ite (.eq u (.word 8 0)) (.bit true) (.bit false)) =
      .bits 1 (.ofBool (v == 0)) := by
    rw [Interpretation.denote_ite_eq hu (I.denote_word 8 0), I.denote_bit, I.denote_bit]
    by_cases hv : v = 0#8
    · simp [hv]
    · have hne : (v == 0) = false := beq_eq_false_iff_ne.2 hv
      rw [if_neg hv, hne]
  have hkept : ∀ hi lo : Nat, hi < 8 → lo < 8 →
      I.denote (.extract hi lo a) = .bits (hi - lo + 1) (p.extractLsb' lo (hi - lo + 1)) :=
    fun hi lo hhi hlo => Interpretation.denote_extract (by omega) (by omega) ha
  have hsign : I.denote (.extract 7 7 u) = .bits 1 (v.extractLsb' 7 1) :=
    Interpretation.denote_extract (by decide) (by decide) hu
  refine (Interpretation.denote_concat hsign (Interpretation.denote_concat
    (hkept 6 2 (by decide) (by decide)) (Interpretation.denote_concat hzero
      (hkept 0 0 (by decide) (by decide))))).trans (Meaning.bits_congr rfl (congrArg _ ?_))
  apply BitVec.eq_of_getLsbD_eq
  intro i hi
  have hmsb : v.msb = v.getLsbD 7 := BitVec.msb_eq_getLsbD_last v
  simp only [getLsbD_setBit _ (show Flag.sign.bit < 8 by decide),
    getLsbD_setBit _ (show Flag.zero.bit < 8 by decide), BitVec.getLsbD_append,
    BitVec.getLsbD_extractLsb', BitVec.getLsbD_ofBool, hmsb]
  interval_cases i <;> simp [Flag.bit]

end CycleCheck.Cycle
