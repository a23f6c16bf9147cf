import CycleCheck.Processor
import CycleCheck.Proofs.Term.Clause
import Mathlib.Algebra.Order.BigOperators.Group.List
import Mathlib.Data.Fintype.Card

/-!
Codes of micro-states, for any list of instructions. A processor is only made if all its
micro-states have different names, so that each has a code of its own, in as many bits as the
largest code needs.
-/

namespace CycleCheck.Processor

/-! ## Lists of instructions that make sense -/

theorem firstRepeat_eq_none {seen names : List String} (h : firstRepeat seen names = none) :
    names.Nodup ∧ ∀ n ∈ names, n ∉ seen := by
  induction names generalizing seen with
  | nil => simp
  | cons n rest ih =>
    rw [firstRepeat] at h
    split_ifs at h with hn
    obtain ⟨hnodup, hfresh⟩ := ih h
    have hrest : n ∉ rest := fun hmem => hfresh n hmem List.mem_cons_self
    refine ⟨List.nodup_cons.2 ⟨hrest, hnodup⟩, List.forall_mem_cons.2 ⟨by simpa using hn, ?_⟩⟩
    exact fun m hm hseen => hfresh m hm (List.mem_cons_of_mem n hseen)

/-- The names of the micro-states of an instruction. -/
def scheduleNames (i : Instruction) : List String := ((schedule? i).getD []).map MicroState.name

theorem checkStates_eq_ok {seen : List String} {is : List Instruction}
    (h : checkStates seen is = .ok ()) : (is.flatMap scheduleNames).Nodup ∧
      (∀ n ∈ is.flatMap scheduleNames, n ∉ seen) ∧ ∀ i ∈ is, (schedule? i).isSome := by
  induction is generalizing seen with
  | nil => simp
  | cons i rest ih =>
    rw [checkStates] at h
    cases hschedule : schedule? i with
    | none => simp [hschedule] at h
    | some states =>
      have hnames : scheduleNames i = states.map MicroState.name := by
        rw [scheduleNames, hschedule, Option.getD_some]
      simp only [hschedule, ← hnames] at h
      split at h
      · cases h
      next hrepeat =>
      obtain ⟨hfirst, hfresh⟩ := firstRepeat_eq_none hrepeat
      obtain ⟨hrest, hlater, hsome⟩ := ih h
      have hdisjoint : ∀ n ∈ scheduleNames i, n ∉ rest.flatMap scheduleNames :=
        fun n hn hmem => hlater n hmem (List.mem_append_left _ hn)
      rw [List.flatMap_cons]
      refine ⟨List.nodup_append'.2 ⟨hfirst, hrest, hdisjoint⟩, fun n hn => ?_, ?_⟩
      · rcases List.mem_append.1 hn with hn | hn
        · exact hfresh n hn
        · exact fun hseen => hlater n hn (List.mem_append_right _ hseen)
      · exact List.forall_mem_cons.2 ⟨by simp [hschedule], hsome⟩

theorem map_name_microStates (is : List Instruction) : (microStates is).map MicroState.name =
    MicroState.resetting.name :: MicroState.instructionFetch.name :: is.flatMap scheduleNames := by
  rw [microStates, List.map_cons, List.map_cons, List.map_flatMap]
  rfl

/-- What is known of a list of instructions that a processor is made of. -/
structure Sensible (is : List Instruction) : Prop where
  names : ((microStates is).map MicroState.name).Nodup
  scheduled : ∀ i ∈ is, (schedule? i).isSome

theorem eq_of_ofInstructions {is : List Instruction} {mc : Processor}
    (h : ofInstructions is = .ok mc) : mc = ofList is ∧ Sensible is := by
  unfold ofInstructions at h
  cases hstates : checkStates [MicroState.resetting.name, MicroState.instructionFetch.name] is with
  | error e => simp [hstates, bind, Except.bind] at h
  | ok u =>
    obtain ⟨hnodup, hfresh, hsome⟩ := checkStates_eq_ok hstates
    simp only [hstates, bind, Except.bind] at h
    split at h
    · cases h
    cases h
    refine ⟨rfl, ?_, hsome⟩
    rw [map_name_microStates]
    refine List.nodup_cons.2 ⟨?_, List.nodup_cons.2 ⟨?_, hnodup⟩⟩
    · refine List.not_mem_cons_of_ne_of_not_mem (by decide) fun hmem => ?_
      exact hfresh _ hmem List.mem_cons_self
    · exact fun hmem => hfresh _ hmem (List.mem_cons_of_mem _ List.mem_cons_self)

theorem length_schedule (i : Instruction) : ((schedule? i).getD []).length ≤ 5 := by
  unfold schedule?
  cases i.mode <;> simp

/-- There are no more instructions than opcodes, so that there are few micro-states. -/
theorem length_microStates {is : List Instruction} (h : (is.map Instruction.opcode).Nodup) :
    (microStates is).length ≤ 1282 := by
  have hopcodes : is.length ≤ 256 := by
    have hnodup : (is.map fun i => i.opcode.toFin).Nodup := by
      rw [show (fun i : Instruction => i.opcode.toFin) = UInt8.toFin ∘ Instruction.opcode from rfl,
        ← List.map_map]
      exact h.map fun a b => UInt8.toFin_inj.1
    simpa using hnodup.length_le_card
  have hsum : (is.flatMap fun i => (schedule? i).getD []).length ≤ is.length * 5 := by
    rw [List.length_flatMap]
    refine (List.sum_le_card_nsmul _ 5 ?_).trans (by simp)
    simp only [List.mem_map]
    rintro _ ⟨i, -, rfl⟩
    exact length_schedule i
  rw [microStates, List.length_cons, List.length_cons]
  omega

/-! ## Codes -/

theorem bitLength_le_iff {n w : Nat} : bitLength n ≤ w ↔ n < 2 ^ w := by
  unfold bitLength
  split_ifs with hn
  · simp [hn]
  · exact Nat.succ_le_iff.trans (Nat.log2_lt hn)

namespace MicroStates

/-- Micro-states have codes of their own, all of the least width, which is at least one. -/
structure Coded (s : MicroStates) : Prop where
  width_pos : 1 ≤ s.width
  size_le : s.size ≤ 2 ^ s.width
  width_least : ∀ w, 1 ≤ w → s.size ≤ 2 ^ w → s.width ≤ w
  /-- the code is a constant that can be made, and its value is the number of the micro-state -/
  literal : ∀ k n, s.names[k]? = some n → ∃ t, s.literal n = .ok t ∧
    Term.bits k.toUInt64 s.width = .ok t ∧
      ∀ I : Interpretation, I.denote t = .bits s.width (.ofNat s.width k)
  distinct : ∀ n m t u, n ≠ m → s.literal n = .ok t → s.literal m = .ok u →
    ∀ I : Interpretation, I.denote t ≠ I.denote u

variable {s : MicroStates}

theorem width_pos (s : MicroStates) : 1 ≤ s.width := Nat.le_max_left ..

theorem width_le_iff {w : Nat} (hw : 1 ≤ w) : s.width ≤ w ↔ s.size ≤ 2 ^ w := by
  have hpos : 0 < 2 ^ w := Nat.two_pow_pos w
  rw [width, Nat.max_le, and_iff_right hw, bitLength_le_iff]
  omega

theorem size_le (s : MicroStates) : s.size ≤ 2 ^ s.width :=
  (width_le_iff s.width_pos).1 le_rfl

theorem getElem?_of_index? {n : String} {k : Nat} (h : s.index? n = some k) :
    s.names[k]? = some n := by
  rw [index?, Array.findIdx?_eq_some_iff_getElem] at h
  obtain ⟨hk, hn, -⟩ := h
  rw [Array.getElem?_eq_getElem hk, beq_iff_eq.1 hn]

theorem index?_of_getElem? (nodup : s.names.toList.Nodup) {n : String} {k : Nat}
    (h : s.names[k]? = some n) : s.index? n = some k := by
  obtain ⟨hk, rfl⟩ := Array.getElem?_eq_some_iff.1 h
  rw [index?, Array.findIdx?_eq_some_iff_getElem]
  refine ⟨hk, by simp, fun j hj hsame => ?_⟩
  have hleft : j < s.names.toList.length := by simpa using hj.trans hk
  have hright : k < s.names.toList.length := by simpa using hk
  have heq : s.names.toList.get ⟨j, hleft⟩ = s.names.toList.get ⟨k, hright⟩ := by simpa using hsame
  have hidx := nodup.injective_get heq
  rw [Fin.mk.injEq] at hidx
  omega

theorem literal_eq_ok {n : String} {t : Term} (h : s.literal n = .ok t) :
    ∃ k, s.index? n = some k ∧ t = .word s.width k := by
  unfold MicroStates.literal at h
  split at h
  · next k hk =>
    cases h
    exact ⟨k, hk, rfl⟩
  · cases h

theorem lt_of_getElem? {n : String} {k : Nat} (h : s.names[k]? = some n) : k < 2 ^ s.width := by
  obtain ⟨hk, -⟩ := Array.getElem?_eq_some_iff.1 h
  exact Nat.lt_of_lt_of_le hk s.size_le

/-- A micro-state is compared with by its number. -/
theorem holds_eq_code {I : Interpretation} {t : Term} {b : BitVec s.width} {k : Nat} {n : String}
    (ht : I.denote t = .bits s.width b) (hk : s.names[k]? = some n) :
    I.Holds (.eq t (.word s.width k)) ↔ b.toNat = k := by
  rw [I.holds_eq_bits ht (I.denote_word s.width k), ← BitVec.toNat_inj, BitVec.toNat_ofNat,
    Nat.mod_eq_of_lt (lt_of_getElem? hk)]

theorem coded_of_nodup (nodup : s.names.toList.Nodup) (narrow : s.width ≤ 64) : s.Coded where
  width_pos := s.width_pos
  size_le := s.size_le
  width_least w hw := (width_le_iff hw).2
  literal k n h := by
    refine ⟨.word s.width k, ?_, ?_, fun I => I.denote_word ..⟩
    · rw [MicroStates.literal, index?_of_getElem? nodup h]
    · exact Term.bits_eq_word s.width_pos narrow (lt_of_getElem? h)
  distinct n m t u hne ht hu I := by
    obtain ⟨j, hj, rfl⟩ := literal_eq_ok ht
    obtain ⟨k, hk, rfl⟩ := literal_eq_ok hu
    have hn := getElem?_of_index? hj
    have hm := getElem?_of_index? hk
    rw [I.denote_word, I.denote_word, Ne, Meaning.bits.injEq, heq_eq_eq, and_iff_right rfl,
      ← BitVec.toNat_inj, BitVec.toNat_ofNat, BitVec.toNat_ofNat,
      Nat.mod_eq_of_lt (lt_of_getElem? hn), Nat.mod_eq_of_lt (lt_of_getElem? hm)]
    rintro rfl
    exact hne (Option.some.inj (hn.symm.trans hm))

end MicroStates

theorem width_states_le {is : List Instruction} (hopcodes : (is.map Instruction.opcode).Nodup) :
    (ofList is).states.width ≤ 64 := by
  refine (MicroStates.width_le_iff (by decide)).2 ?_
  have hlength := length_microStates hopcodes
  rw [MicroStates.size, ofList, MicroStates.ofList, List.size_toArray, List.length_map]
  omega

theorem coded_ofList {is : List Instruction} (sensible : Sensible is)
    (hopcodes : (is.map Instruction.opcode).Nodup) : (ofList is).states.Coded :=
  MicroStates.coded_of_nodup sensible.names (width_states_le hopcodes)

end CycleCheck.Processor
