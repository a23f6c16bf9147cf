import CycleCheck.Proofs.Cycle.Encoding
import CycleCheck.Proofs.Cycle.RuleSorts

/-!
What rules do, for any list of instructions that a processor can be made of. They are in
micro-states that have codes and go to such, and their effects give all outputs, whatever the inputs
are, and leave the micro-state alone.
-/

namespace CycleCheck.Processor

/-! ## Micro-states of rules -/

theorem states_of_mem_indexedRules {i : Instruction} {fetch next fixup : MicroState} {r : Rule}
    (hr : r ∈ indexedRules i fetch next fixup) :
    (r.state = fetch ∨ r.state = fixup) ∧ (r.next = some next ∨ r.next = some fixup) := by
  unfold indexedRules at hr
  rcases List.mem_append.1 hr with hr | hr
  · split_ifs at hr
    · simp only [List.mem_cons, List.not_mem_nil, or_false] at hr
      rcases hr with rfl | rfl
      · exact ⟨.inl rfl, .inl rfl⟩
      · exact ⟨.inl rfl, .inr rfl⟩
    · rw [List.mem_singleton.1 hr]
      exact ⟨.inl rfl, .inr rfl⟩
  · rw [List.mem_singleton.1 hr]
    exact ⟨.inr rfl, .inl rfl⟩

/-- The rules of an instruction are about its own micro-states, and they end in the fetch of the
next instruction. -/
theorem states_of_mem_instructionRules {i : Instruction} {r : Rule} (hr : r ∈ instructionRules i) :
    r.state ∈ (schedule? i).getD [] ∧
      ∃ m, r.next = some m ∧ (m = .instructionFetch ∨ m ∈ (schedule? i).getD []) := by
  unfold instructionRules at hr
  unfold schedule?
  cases hmode : i.mode <;> simp only [hmode, List.cons_append, List.mem_cons, List.mem_append,
    List.not_mem_nil, or_false] at hr ⊢
  case implied | immediate => subst hr; simp [plainRule]
  case zeroPage => rcases hr with rfl | rfl <;> simp [plainRule]
  case zeroPageIndexedX | zeroPageIndexedY | absolute =>
    rcases hr with rfl | rfl | rfl <;> simp [plainRule, lowAddressRule, absoluteAccessRule]
  case indexedIndirect =>
    rcases hr with rfl | rfl | rfl | rfl | rfl <;>
      simp [plainRule, pointerRule, pointerHighRule, absoluteAccessRule]
  case absoluteIndexedX | absoluteIndexedY =>
    rcases hr with rfl | hr | rfl
    · simp [plainRule, lowAddressRule]
    · obtain ⟨hs, hn⟩ := states_of_mem_indexedRules hr
      rcases hs with hs | hs <;> rcases hn with hn | hn <;> simp [hs, hn]
    · simp [plainRule]
  case indirectIndexed =>
    rcases hr with rfl | rfl | hr | rfl
    · simp [plainRule, pointerRule]
    · simp [plainRule, pointerHighRule]
    · obtain ⟨hs, hn⟩ := states_of_mem_indexedRules hr
      rcases hs with hs | hs <;> rcases hn with hn | hn <;> simp [hs, hn]
    · simp [plainRule]

theorem mem_allRules {is : List Instruction} {r : Rule} : r ∈ allRules is ↔
    r ∈ resetRules ∨ (∃ i ∈ is, decodeRule i = r) ∨ ∃ i ∈ is, r ∈ instructionRules i := by
  simp only [allRules, List.mem_append, List.mem_map, List.mem_flatMap, or_assoc]

theorem states_of_mem_resetRules {r : Rule} (hr : r ∈ resetRules) :
    r.state = .resetting ∧ ∀ m, r.next = some m → m = .instructionFetch := by
  simp only [resetRules, List.mem_cons, List.not_mem_nil, or_false] at hr
  rcases hr with rfl | rfl | rfl | rfl | rfl | rfl | rfl | rfl <;> simp [resetRule]

/-- The first cycle of an instruction with a mode that is supported. -/
theorem cycle_mem_schedule {i : Instruction} (h : (schedule? i).isSome) :
    MicroState.cycle i.label 1 ∈ (schedule? i).getD [] := by
  unfold schedule? at h ⊢
  cases hmode : i.mode <;> simp [hmode] at h ⊢

/-- Every micro-state that a rule is in or goes to has a code. -/
theorem states_of_mem {is : List Instruction} (sensible : Sensible is) {r : Rule}
    (hr : r ∈ allRules is) :
    r.state ∈ microStates is ∧ ∀ m, r.next = some m → m ∈ microStates is := by
  have hfetch : MicroState.instructionFetch ∈ microStates is := by simp [microStates]
  have hschedule : ∀ i ∈ is, ∀ m ∈ (schedule? i).getD [], m ∈ microStates is := by
    intro i hi m hm
    simp only [microStates, List.mem_cons, List.mem_flatMap]
    exact .inr (.inr ⟨i, hi, hm⟩)
  rcases mem_allRules.1 hr with hr | ⟨i, hi, rfl⟩ | ⟨i, hi, hr⟩
  · obtain ⟨hstate, hnext⟩ := states_of_mem_resetRules hr
    exact ⟨by simp [hstate, microStates], fun m hm => hnext m hm ▸ hfetch⟩
  · refine ⟨hfetch, fun m hm => ?_⟩
    cases hm
    exact hschedule i hi _ (cycle_mem_schedule (sensible.scheduled i hi))
  · obtain ⟨hstate, m, hm, hnext⟩ := states_of_mem_instructionRules hr
    refine ⟨hschedule i hi _ hstate, fun m' hm' => ?_⟩
    cases hm.symm.trans hm'
    rcases hnext with rfl | hnext
    · exact hfetch
    · exact hschedule i hi _ hnext

/-! ## Effects of rules -/

namespace Draft

variable {inp d : Draft} {u : Term}

/-- The variables other than the micro-state do not tell which micro-state it is. -/
theorem set_state_apply (d : Draft) (u : Term) {v : Variable} (hv : v ≠ .state) :
    d.set .state u v = d v := if_neg hv

theorem set_state_comm (d : Draft) {v : Variable} (hv : v ≠ .state) (t u : Term) :
    (d.set .state u).set v t = (d.set v t).set .state u := by
  funext w
  unfold Draft.set
  split_ifs with h h' <;> simp_all

theorem set_state_self (d : Draft) : d.set .state (d .state) = d := by
  funext w
  unfold Draft.set
  split_ifs with h
  · rw [h]
  · rfl

end Draft

/-- An effect gives outputs whatever the inputs are, and it leaves the micro-state alone. -/
def Regular (effect : Inputs → Except ProcessorError Draft) : Prop :=
  ∀ inp : Draft, ∃ d, effect inp = .ok d ∧
    ∀ u, effect (inp.set .state u) = .ok (d.set .state u)

/-- A draft made of inputs leaves the micro-state alone. -/
def Blind (draft : Inputs → Draft) : Prop :=
  ∀ (inp : Draft) (u : Term), draft (inp.set .state u) = (draft inp).set .state u

theorem Blind.regular {draft : Inputs → Draft} (h : Blind draft) :
    Regular fun inp => .ok (draft inp) :=
  fun inp => ⟨draft inp, rfl, fun u => congrArg Except.ok (h inp u)⟩

namespace Blind

variable {draft : Inputs → Draft} {t t' : Inputs → Term}

theorem inputs : Blind fun inp => inp := fun _ _ => rfl

theorem set (h : Blind draft) {v : Variable} (hv : v ≠ .state)
    (ht : ∀ (inp : Draft) u, t (inp.set .state u) = t inp) :
    Blind fun inp => (draft inp).set v (t inp) := by
  intro inp u
  simp only [h inp u, ht inp u, Draft.set_state_comm _ hv]

theorem read (h : Blind draft) (ht : ∀ (inp : Draft) u, t (inp.set .state u) = t inp) :
    Blind fun inp => (draft inp).read (t inp) :=
  (h.set (v := .addressBus) (by decide) ht).set (v := .writeEnable) (by decide) fun _ _ => rfl

theorem write (h : Blind draft) (ht : ∀ (inp : Draft) u, t (inp.set .state u) = t inp)
    (ht' : ∀ (inp : Draft) u, t' (inp.set .state u) = t' inp) :
    Blind fun inp => (draft inp).write (t inp) (t' inp) :=
  ((h.set (v := .addressBus) (by decide) ht).set (v := .writeEnable) (by decide)
    fun _ _ => rfl).set (v := .dataOut) (by decide) ht'

theorem fetch (h : Blind draft) : Blind fun inp => (draft inp).fetch inp := h.read fun _ _ => rfl

theorem incrementPC (h : Blind draft) : Blind fun inp => (draft inp).incrementPC inp :=
  h.set (v := .pc) (by decide) fun _ _ => rfl

end Blind

/-- An instruction that has an operand also has a register. -/
def Registered (i : Instruction) : Prop :=
  i.effect = .read ∨ i.effect = .write → ∃ r, register i = .ok r

theorem registered_of_mnemonic {i : Instruction} (h : i.effect = .read ∨ i.effect = .write →
    i.mnemonic ∈ ["LDA", "LDX", "LDY", "STA", "STX", "STY"]) : Registered i := by
  intro heffect
  have hmem := h heffect
  simp only [List.mem_cons, List.not_mem_nil, or_false] at hmem
  rcases hmem with h | h | h | h | h | h <;> exact ⟨_, by rw [register, h]; rfl⟩

theorem register_ne_state {i : Instruction} {r : Variable} (h : register i = .ok r) :
    r ≠ .state := by
  unfold register at h
  split_ifs at h <;> cases h <;> decide

theorem indexRegister_ne_state (mode : AddressingMode) : indexRegister mode ≠ .state := by
  cases mode <;> simp [indexRegister]

theorem regular_access {i : Instruction} (hi : Registered i) {draft : Inputs → Draft}
    {address : Inputs → Term} (hdraft : Blind draft)
    (haddress : ∀ (inp : Draft) u, address (inp.set .state u) = address inp) :
    Regular fun inp => access i inp (draft inp) (address inp) := by
  unfold access
  split
  · exact (hdraft.read haddress).regular
  · next heffect =>
    obtain ⟨r, hr⟩ := hi (.inr heffect)
    rw [hr]
    exact (hdraft.write haddress fun inp u =>
      inp.set_state_apply u (register_ne_state hr)).regular
  · exact hdraft.regular

theorem regular_finish {i : Instruction} (hi : Registered i) : Regular (finish i) := by
  unfold finish
  split_ifs with heffect
  · obtain ⟨r, hr⟩ := hi (.inl heffect)
    rw [hr]
    exact (((Blind.inputs.set (register_ne_state hr) fun _ _ => rfl).set (v := .p) (by decide)
      fun _ _ => rfl).fetch.incrementPC).regular
  · exact Blind.inputs.fetch.incrementPC.regular

theorem regular_of_mem_resetRules {r : Rule} (hr : r ∈ resetRules) : Regular r.effect := by
  have hstart : ∀ phase, Blind fun inp =>
      Draft.set inp .resetSequence (.word 3 ((phase + 1) % resetPhases)) :=
    fun phase => Blind.inputs.set (by decide) fun _ _ => rfl
  have hstack : ∀ phase, Blind fun inp => stackRead inp
      (Draft.set inp .resetSequence (.word 3 ((phase + 1) % resetPhases))) :=
    fun phase => ((hstart phase).read fun _ _ => rfl).set (by decide) fun _ _ => rfl
  simp only [resetRules, List.mem_cons, List.not_mem_nil, or_false] at hr
  rcases hr with rfl | rfl | rfl | rfl | rfl | rfl | rfl | rfl
  · exact (hstart 0).fetch.regular
  · exact (hstart 1).fetch.regular
  · exact (hstack 2).regular
  · exact (hstack 3).regular
  · exact (hstack 4).regular
  · exact (((hstart 5).read fun _ _ => rfl).set (by decide) fun _ _ => rfl).regular
  · exact (((hstart 6).read fun _ _ => rfl).set (by decide) fun _ _ => rfl).regular
  · exact (((hstart 7).read fun _ _ => rfl).set (by decide) fun _ _ => rfl).regular

theorem regular_decodeRule (i : Instruction) : Regular (decodeRule i).effect := by
  simp only [decodeRule]
  split_ifs
  · exact Blind.inputs.fetch.regular
  · exact Blind.inputs.fetch.incrementPC.regular

theorem regular_of_mem_indexedRules {i : Instruction} (hi : Registered i)
    {fetch next fixup : MicroState} {r : Rule} (hr : r ∈ indexedRules i fetch next fixup) :
    Regular r.effect := by
  have hindex : ∀ (inp : Draft) u, inp.set .state u (indexRegister i.mode) =
      inp (indexRegister i.mode) := fun inp u => inp.set_state_apply u (indexRegister_ne_state _)
  have hbased : Blind fun inp =>
      Draft.set inp .tempAddress (.concat (inp .dataIn) (lowByte (inp .tempAddress))) :=
    Blind.inputs.set (by decide) fun _ _ => rfl
  have huncorrected : ∀ (inp : Draft) u, Term.concat (inp.set .state u .dataIn)
      (.add (lowByte (inp.set .state u .tempAddress)) (inp.set .state u (indexRegister i.mode))) =
        Term.concat (inp .dataIn)
          (.add (lowByte (inp .tempAddress)) (inp (indexRegister i.mode))) := by
    intro inp u
    rw [hindex]
    rfl
  unfold indexedRules at hr
  rcases List.mem_append.1 hr with hr | hr
  · split_ifs at hr
    · simp only [List.mem_cons, List.not_mem_nil, or_false] at hr
      rcases hr with rfl | rfl
      · exact regular_access hi hbased huncorrected
      · exact (hbased.read huncorrected).regular
    · rw [List.mem_singleton.1 hr]
      exact (hbased.read huncorrected).regular
  · rw [List.mem_singleton.1 hr]
    refine regular_access hi Blind.inputs fun inp u => ?_
    rw [hindex]
    rfl

theorem regular_of_mem_instructionRules {i : Instruction} (hi : Registered i) {r : Rule}
    (hr : r ∈ instructionRules i) : Regular r.effect := by
  cases ruleForm_of_mem hr with
  | implied =>
    simp only [plainRule]
    split
    · exact (Blind.inputs.set (v := .p) (by decide) fun _ _ => rfl).fetch.incrementPC.regular
    · exact Blind.inputs.fetch.incrementPC.regular
  | last => exact regular_finish hi
  | zeroPage | absoluteAccess => exact regular_access hi Blind.inputs fun _ _ => rfl
  | zeroPageBase | pointer =>
    exact ((Blind.inputs.read fun _ _ => rfl).set (by decide) fun _ _ => rfl).regular
  | zeroPageIndexed =>
    refine regular_access hi Blind.inputs fun inp u => ?_
    rw [inp.set_state_apply u (indexRegister_ne_state _)]
    rfl
  | lowAddress =>
    exact (Blind.inputs.set (v := .tempAddress) (by decide)
      fun _ _ => rfl).fetch.incrementPC.regular
  | pointerIndexed | pointerHigh =>
    exact ((Blind.inputs.set (by decide) fun _ _ => rfl).read fun _ _ => rfl).regular
  | indexed hr => exact regular_of_mem_indexedRules hi hr

end CycleCheck.Processor
