import CycleCheck.Proofs.Cycle.Rules

/-!
Transitions have rules. In every micro-state that has a transition, one of the rules of the
processor applies.
-/

namespace CycleCheck.Cycle

open Processor

variable {I : Interpretation} {inp : Inputs} {c : Cpu} {d : BitVec 8}

theorem exists_resetRule (h : Gives I inp c d) (hc : c.state = codeOf .resetting) :
    ∃ r ∈ resetRules, Applies I r inp c := by
  have hall : ∀ phase < 8, ∃ next effect, resetRule phase next effect ∈ resetRules := by
    intro phase hphase
    interval_cases phase <;> exact ⟨_, _, by simp [resetRules]; tauto⟩
  obtain ⟨next, effect, hmem⟩ := hall c.resetSequence.toNat c.resetSequence.isLt
  refine ⟨_, hmem, hc, fun g hg => ?_⟩
  cases hg
  rw [Interpretation.holds_eq_bits (h .resetSequence) (I.denote_word 3 _)]
  simp

theorem applies_plainRule {m next : MicroState} {effect : Inputs → Except ProcessorError Draft}
    (hc : c.state = codeOf m) : Applies I (plainRule m next effect) inp c :=
  ⟨hc, by simp [plainRule]⟩

theorem exists_indexedRule (I : Interpretation) (inp : Inputs) (i : Instruction)
    {fetch next fixup : MicroState} (hc : c.state = codeOf fetch) :
    ∃ r ∈ indexedRules i fetch next fixup, Applies I r inp c := by
  unfold indexedRules
  by_cases hsensitive : i.pageSensitive = true
  · simp only [if_pos hsensitive]
    by_cases hcarry : I.Holds (carry (lowByte (inp .tempAddress)) (inp (indexRegister i.mode)))
    · refine ⟨_, List.mem_append_left _ (List.mem_cons_of_mem _ List.mem_cons_self), hc, ?_⟩
      intro g hg
      cases hg
      exact hcarry
    · refine ⟨_, List.mem_append_left _ List.mem_cons_self, hc, fun g hg => ?_⟩
      cases hg
      exact I.holds_not.2 hcarry
  · simp only [if_neg hsensitive]
    exact ⟨_, List.mem_append_left _ List.mem_cons_self, applies_plainRule hc⟩

theorem exists_fixupRule (I : Interpretation) (inp : Inputs) (i : Instruction)
    {fetch next fixup : MicroState} (hc : c.state = codeOf fixup) :
    ∃ r ∈ indexedRules i fetch next fixup, Applies I r inp c :=
  ⟨_, List.mem_append_right _ List.mem_cons_self, applies_plainRule hc⟩

/-- In every micro-state of an instruction one of its rules applies. -/
theorem exists_instructionRule (I : Interpretation) (inp : Inputs) {i : Instruction}
    {m : MicroState} (hm : m ∈ (schedule? i).getD []) (hc : c.state = codeOf m) :
    ∃ r ∈ instructionRules i, Applies I r inp c := by
  unfold schedule? at hm
  unfold instructionRules
  cases hmode : i.mode with
  | implied | immediate =>
    simp only [hmode, Option.getD_some, List.mem_singleton] at hm ⊢
    subst hm
    exact ⟨_, rfl, applies_plainRule hc⟩
  | zeroPage =>
    simp only [hmode, Option.getD_some, List.mem_cons, List.not_mem_nil, or_false] at hm
    rcases hm with rfl | rfl
    · exact ⟨_, List.mem_cons_self, applies_plainRule hc⟩
    · exact ⟨_, List.mem_cons_of_mem _ List.mem_cons_self, applies_plainRule hc⟩
  | zeroPageIndexedX | zeroPageIndexedY | absolute =>
    simp only [hmode, Option.getD_some, List.mem_cons, List.not_mem_nil, or_false] at hm
    rcases hm with rfl | rfl | rfl
    · exact ⟨_, List.mem_cons_self, applies_plainRule hc⟩
    · exact ⟨_, List.mem_cons_of_mem _ List.mem_cons_self, applies_plainRule hc⟩
    · exact ⟨_, List.mem_cons_of_mem _ (List.mem_cons_of_mem _ List.mem_cons_self),
        applies_plainRule hc⟩
  | absoluteIndexedX | absoluteIndexedY =>
    simp only [hmode, Option.getD_some, List.mem_cons, List.not_mem_nil, or_false] at hm
    rcases hm with rfl | rfl | rfl | rfl
    · exact ⟨_, List.mem_append_left _ List.mem_cons_self, applies_plainRule hc⟩
    · obtain ⟨r, hr, happ⟩ := exists_indexedRule I inp i hc
      exact ⟨r, List.mem_append_left _ (List.mem_cons_of_mem _ hr), happ⟩
    · obtain ⟨r, hr, happ⟩ := exists_fixupRule I inp i hc
      exact ⟨r, List.mem_append_left _ (List.mem_cons_of_mem _ hr), happ⟩
    · exact ⟨_, List.mem_append_right _ List.mem_cons_self, applies_plainRule hc⟩
  | indexedIndirect =>
    simp only [hmode, Option.getD_some, List.mem_cons, List.not_mem_nil, or_false] at hm
    rcases hm with rfl | rfl | rfl | rfl | rfl
    · exact ⟨_, .head _, applies_plainRule hc⟩
    · exact ⟨_, .tail _ (.head _), applies_plainRule hc⟩
    · exact ⟨_, .tail _ (.tail _ (.head _)), applies_plainRule hc⟩
    · exact ⟨_, .tail _ (.tail _ (.tail _ (.head _))), applies_plainRule hc⟩
    · exact ⟨_, .tail _ (.tail _ (.tail _ (.tail _ (.head _)))), applies_plainRule hc⟩
  | indirectIndexed =>
    simp only [hmode, Option.getD_some, List.mem_cons, List.not_mem_nil, or_false] at hm
    rcases hm with rfl | rfl | rfl | rfl | rfl
    · exact ⟨_, List.mem_append_left _ (.head _), applies_plainRule hc⟩
    · exact ⟨_, List.mem_append_left _ (.tail _ (.head _)), applies_plainRule hc⟩
    · obtain ⟨r, hr, happ⟩ := exists_indexedRule I inp i hc
      exact ⟨r, List.mem_append_left _ (.tail _ (.tail _ hr)), happ⟩
    · obtain ⟨r, hr, happ⟩ := exists_fixupRule I inp i hc
      exact ⟨r, List.mem_append_left _ (.tail _ (.tail _ hr)), happ⟩
    · exact ⟨_, List.mem_append_right _ (.head _), applies_plainRule hc⟩
  | other => simp [hmode] at hm

/-- Where there is a transition a rule applies. -/
theorem exists_applies (h : Gives I inp c d) {c' : Cpu} (hnext : c.next? d = some c') :
    ∃ r ∈ Processor.standard.rules, Applies I r inp c := by
  change ∃ r ∈ allRules Instruction.table, _
  obtain ⟨m, hm⟩ : ∃ m, microState? c.state = some m := by
    cases hm : microState? c.state with
    | none => simp [Cpu.next?, hm] at hnext
    | some m => exact ⟨m, rfl⟩
  have hc := codeOf_of_microState? hm
  have hmem : m ∈ microStates := List.mem_of_getElem? hm
  rw [microStates, Processor.microStates, List.mem_cons, List.mem_cons, List.mem_flatMap] at hmem
  simp only [allRules, List.mem_append, List.mem_map, List.mem_flatMap]
  rcases hmem with rfl | rfl | ⟨i, hi, hm⟩
  · obtain ⟨r, hr, happ⟩ := exists_resetRule h hc
    exact ⟨r, .inl (.inl hr), happ⟩
  · rw [Cpu.next?_instructionFetch hc] at hnext
    obtain ⟨i, hi, -⟩ := Option.map_eq_some_iff.1 hnext
    refine ⟨_, .inl (.inr ⟨i, List.mem_of_find?_eq_some hi, rfl⟩), hc, fun g hg => ?_⟩
    cases hg
    exact (holds_opcode h i).2 (by simpa using List.find?_some hi)
  · obtain ⟨r, hr, happ⟩ := exists_instructionRule I inp hm hc
    exact ⟨r, .inr ⟨i, hi, hr⟩, happ⟩

end CycleCheck.Cycle
