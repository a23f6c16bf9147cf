import CycleCheck.Proofs.Cycle.Processor
import CycleCheck.Proofs.Cycle.RuleEffects

/-!
A cycle is a function of its inputs, for any list of instructions that a processor can be made of.
The implications of the rules can be generated, no two of their conditions are true together, and
each gives every output one value.
-/

namespace CycleCheck.Processor

open CycleCheck.Cycle

/-! ## Conditions of rules -/

/-- A rule applies in a micro-state, by its name. -/
def Fires (I : Interpretation) (inp : Inputs) (n : String) (r : Rule) : Prop :=
  r.state.name = n ∧ ∀ g, r.guard = some g → I.Holds (g inp)

section Counting

open Classical

variable {I : Interpretation} {inp : Inputs} {n : String}

theorem fires_plainRule {state next : MicroState} {effect : Inputs → Except ProcessorError Draft} :
    Fires I inp n (plainRule state next effect) ↔ state.name = n := by
  simp [Fires, plainRule]

theorem fires_guarded {state : MicroState} {g : Inputs → Term} {next : Option MicroState}
    {effect : Inputs → Except ProcessorError Draft} :
    Fires I inp n ⟨state, some g, next, effect⟩ ↔ state.name = n ∧ I.Holds (g inp) := by
  simp [Fires]

theorem countP_indexedRules (I : Interpretation) (inp : Inputs) (n : String) (i : Instruction)
    (fetch next fixup : MicroState) :
    (indexedRules i fetch next fixup).countP (Fires I inp n) =
      [fetch.name, fixup.name].count n := by
  unfold indexedRules
  split_ifs
  · -- the two guards are opposite, so that one of the two rules counts
    by_cases hcarry : I.Holds (carry (lowByte (inp .tempAddress)) (inp (indexRegister i.mode))) <;>
      simp [List.countP_cons, List.count_cons, fires_plainRule, fires_guarded, Term.not,
        Interpretation.holds_not, hcarry, Nat.add_comm]
  · simp [List.countP_cons, List.count_cons, fires_plainRule, Nat.add_comm]

/-- In each micro-state of an instruction one of its rules applies. -/
theorem countP_instructionRules (I : Interpretation) (inp : Inputs) (n : String)
    (i : Instruction) :
    (instructionRules i).countP (Fires I inp n) = (scheduleNames i).count n := by
  unfold instructionRules scheduleNames schedule?
  cases i.mode <;> simp only [lowAddressRule, pointerRule, pointerHighRule, absoluteAccessRule,
    List.cons_append, List.countP_cons, List.countP_append, countP_indexedRules, fires_plainRule,
    List.countP_nil, Option.getD_some, Option.getD_none, List.map_cons, List.map_nil,
    List.count_cons, List.count_nil, decide_eq_true_eq, beq_iff_eq]
  all_goals omega

/-- Each phase of the reset has one rule. -/
theorem countP_resetRules {q : BitVec 3} (hq : I.denote (inp .resetSequence) = .bits 3 q)
    (n : String) :
    resetRules.countP (Fires I inp n) = [MicroState.resetting.name].count n := by
  have hphase : ∀ k, I.Holds (.eq (inp .resetSequence) (.word 3 k)) ↔ q.toNat = k % 8 := by
    intro k
    rw [I.holds_eq_bits hq (I.denote_word 3 k), ← BitVec.toNat_inj, BitVec.toNat_ofNat]
  by_cases hn : MicroState.resetting.name = n
  · simp only [resetRules, resetRule, List.countP_cons, List.countP_nil, fires_guarded, hphase, hn,
      true_and, List.count_cons_self, List.count_nil]
    have hlt : q.toNat < 8 := q.isLt
    interval_cases q.toNat <;> simp
  · simp [resetRules, resetRule, fires_guarded, hn]

/-- An opcode has one rule at most. -/
theorem countP_decodeRule {is : List Instruction} (hopcodes : (is.map Instruction.opcode).Nodup)
    {d : BitVec 8} (hd : I.denote (inp .dataIn) = .bits 8 d) (n : String) :
    (is.map decodeRule).countP (Fires I inp n) =
      if MicroState.instructionFetch.name = n ∧ ∃ i ∈ is, i.opcode.toBitVec = d then 1
      else 0 := by
  have hfires : ∀ i, Fires I inp n (decodeRule i) ↔
      MicroState.instructionFetch.name = n ∧ i.opcode = ⟨d⟩ := by
    intro i
    rw [decodeRule, fires_guarded, I.holds_eq_bits hd (I.denote_word 8 _),
      BitVec.ofNat_uInt8ToNat, eq_comm (a := d), ← UInt8.toBitVec_inj]
  by_cases hn : MicroState.instructionFetch.name = n
  · have hcount : (is.map decodeRule).countP (Fires I inp n) =
        (is.map Instruction.opcode).count ⟨d⟩ := by
      rw [List.countP_map, List.count, List.countP_map]
      refine List.countP_congr fun i _ => ?_
      simp [hfires, hn]
    rw [hcount, List.Nodup.count hopcodes]
    simp [hn, ← UInt8.toBitVec_inj]
  · simp [List.countP_map, Function.comp_def, hfires, hn]

theorem countP_allRules {is : List Instruction} (hopcodes : (is.map Instruction.opcode).Nodup)
    {q : BitVec 3} (hq : I.denote (inp .resetSequence) = .bits 3 q)
    {d : BitVec 8} (hd : I.denote (inp .dataIn) = .bits 8 d) (n : String) :
    (allRules is).countP (Fires I inp n) = [MicroState.resetting.name].count n +
      (if MicroState.instructionFetch.name = n ∧ ∃ i ∈ is, i.opcode.toBitVec = d then 1 else 0) +
        (is.flatMap scheduleNames).count n := by
  have hrest : (is.flatMap instructionRules).countP (Fires I inp n) =
      (is.flatMap scheduleNames).count n := by
    rw [List.countP_flatMap, List.count_flatMap]
    exact congrArg List.sum (List.map_congr_left fun i _ => countP_instructionRules I inp n i)
  rw [allRules, List.countP_append, List.countP_append, countP_resetRules hq,
    countP_decodeRule hopcodes hd, hrest]

theorem count_names (is : List Instruction) (n : String) :
    ((microStates is).map MicroState.name).count n = [MicroState.resetting.name].count n +
      (if MicroState.instructionFetch.name = n then 1 else 0) +
        (is.flatMap scheduleNames).count n := by
  rw [map_name_microStates, List.count_cons, List.count_cons, List.count_singleton]
  simp only [beq_iff_eq]
  omega

/-- No two rules apply together. -/
theorem countP_allRules_le {is : List Instruction} (sensible : Sensible is)
    (hopcodes : (is.map Instruction.opcode).Nodup)
    {q : BitVec 3} (hq : I.denote (inp .resetSequence) = .bits 3 q)
    {d : BitVec 8} (hd : I.denote (inp .dataIn) = .bits 8 d) (n : String) :
    (allRules is).countP (Fires I inp n) ≤ 1 := by
  have hnames := List.nodup_iff_count_le_one.1 sensible.names n
  rw [count_names] at hnames
  rw [countP_allRules hopcodes hq hd]
  refine le_trans (Nat.add_le_add_right (Nat.add_le_add_left ?_ _) _) hnames
  split_ifs with h h' <;> simp_all

/-- One rule applies in a micro-state, if the opcode to be decoded is one of an instruction. -/
theorem countP_allRules_eq_one {is : List Instruction} (sensible : Sensible is)
    (hopcodes : (is.map Instruction.opcode).Nodup)
    {q : BitVec 3} (hq : I.denote (inp .resetSequence) = .bits 3 q)
    {d : BitVec 8} (hd : I.denote (inp .dataIn) = .bits 8 d) {n : String}
    (hn : n ∈ (microStates is).map MicroState.name)
    (hopcode : MicroState.instructionFetch.name = n → ∃ i ∈ is, i.opcode.toBitVec = d) :
    (allRules is).countP (Fires I inp n) = 1 := by
  have hnames := List.count_eq_one_of_mem sensible.names hn
  rw [count_names] at hnames
  rwa [countP_allRules hopcodes hq hd, if_congr (and_iff_left_of_imp hopcode) rfl rfl]

end Counting

/-! ## Cases -/

/-- One implication of a cycle: a condition, and the terms that the outputs then have. -/
structure Case where
  condition : Term
  draft : Draft

namespace Case

/-- Each output has its term. -/
def consequent (c : Case) (after : Variable → Term) : Term :=
  .all (Variable.outputs.map fun v => .eq (after v) (c.draft v))

def command (c : Case) (after : Variable → Term) : Command :=
  .assert (.implies c.condition (c.consequent after))

end Case

/-- The case of a rule. -/
structure IsCase (mc : Processor) (inp : Inputs) (r : Rule) (c : Case) : Prop where
  command : ∀ after, mc.ruleAssertion inp after r = .ok (c.command after)
  /-- the condition holds in the micro-state of the rule, under its guard -/
  condition : ∃ k, mc.states.index? r.state.name = some k ∧ ∀ I : Interpretation,
    I.Holds c.condition ↔ I.Holds (.eq (inp .state) (.word mc.states.width k)) ∧
      ∀ g, r.guard = some g → I.Holds (g inp)
  typed : ∀ Γ : Scope, (∀ v, (inp v).Evaluable Γ (.bits (mc.width v))) →
    ∀ v, (c.draft v).Evaluable Γ (.bits (mc.width v))

theorem width_ofList (is : List Instruction) {v : Variable} (hv : v ≠ .state) :
    (ofList is).width v = bitsOf v := by
  cases v <;> first | rfl | exact absurd rfl hv

/-- The terms of an effect have the widths of their variables. -/
theorem evaluable_effect {is : List Instruction} {r : Rule} (typed : TypedRule r)
    (regular : Regular r.effect) {inp d : Draft} (hd : r.effect inp = .ok d) {Γ : Scope}
    (hinp : ∀ v, (inp v).Evaluable Γ (.bits ((ofList is).width v))) (v : Variable) :
    (d v).Evaluable Γ (.bits ((ofList is).width v)) := by
  obtain ⟨d', hd', hblind⟩ := regular inp
  cases hd.symm.trans hd'
  by_cases hv : v = .state
  · -- the micro-state is the one before
    have hsame := hblind (inp .state)
    rw [Draft.set_state_self, hd, Except.ok.injEq] at hsame
    subst hv
    rw [hsame]
    exact hinp .state
  · -- the widths of the other variables are those of any processor
    have hstart : Typed Γ (Draft.set inp .state (.word 7 0)) := by
      intro w
      by_cases hw : w = .state
      · subst hw
        exact Term.Evaluable.word (w := 7) (n := 0) (by decide) (by decide) (by decide)
      · rw [Draft.set_state_apply _ _ hw, ← width_ofList is hw]
        exact hinp w
    have hvalue := typed.effect hstart (hblind _) v
    rwa [Draft.set_state_apply _ _ hv, ← width_ofList is hv] at hvalue

theorem index?_name {is : List Instruction} (sensible : Sensible is) {m : MicroState}
    (hm : m ∈ microStates is) : ∃ k, (ofList is).states.index? m.name = some k := by
  obtain ⟨k, hk, hget⟩ := List.getElem_of_mem (List.mem_map_of_mem (f := MicroState.name) hm)
  refine ⟨k, MicroStates.index?_of_getElem? sensible.names ?_⟩
  simpa [ofList, MicroStates.ofList] using List.getElem?_eq_some_iff.2 ⟨hk, hget⟩

theorem regular_of_mem {is : List Instruction} (registered : ∀ i ∈ is, Registered i) {r : Rule}
    (hr : r ∈ allRules is) : Regular r.effect := by
  rcases mem_allRules.1 hr with hr | ⟨i, -, rfl⟩ | ⟨i, hi, hr⟩
  · exact regular_of_mem_resetRules hr
  · exact regular_decodeRule i
  · exact regular_of_mem_instructionRules (registered i hi) hr

theorem typed_of_mem_allRules {is : List Instruction} {r : Rule} (hr : r ∈ allRules is) :
    TypedRule r := by
  rcases mem_allRules.1 hr with hr | ⟨i, -, rfl⟩ | ⟨i, -, hr⟩
  · exact typed_of_mem_resetRules hr
  · exact typed_decodeRule i
  · exact typed_of_mem_instructionRules hr

/-- The condition of a rule: to be in its micro-state, and its guard if it has one. -/
def Rule.condition (r : Rule) (inp : Inputs) (here : Term) : Term :=
  match r.guard with
  | none => here
  | some g => .all [here, g inp]

/-- Every rule has its case, whatever the inputs are. -/
theorem exists_case {is : List Instruction} (sensible : Sensible is)
    (narrow : (ofList is).states.width ≤ 64) (registered : ∀ i ∈ is, Registered i) {r : Rule}
    (hr : r ∈ allRules is) (inp : Inputs) : ∃ c, IsCase (ofList is) inp r c := by
  obtain ⟨hstate, hnext⟩ := states_of_mem sensible hr
  obtain ⟨k, hk⟩ := index?_name sensible hstate
  have regular := regular_of_mem registered hr
  have typed := typed_of_mem_allRules hr
  obtain ⟨d, hd, -⟩ := regular inp
  have hliteral : (ofList is).states.literal r.state.name =
      .ok (.word (ofList is).states.width k) := by
    rw [MicroStates.literal, hk]
  -- the draft of the effect, with the micro-state that the rule goes to
  obtain ⟨d', hd', hassert⟩ : ∃ d' : Draft,
      (∀ Γ : Scope, (∀ v, (inp v).Evaluable Γ (.bits ((ofList is).width v))) →
        ∀ v, (d' v).Evaluable Γ (.bits ((ofList is).width v))) ∧
      ∀ after, (ofList is).ruleAssertion inp after r = .ok (.assert (.implies
        (r.condition inp (.eq (inp .state) (.word (ofList is).states.width k)))
        (.all (Variable.outputs.map fun v => .eq (after v) (d' v))))) := by
    cases hto : r.next with
    | none =>
      refine ⟨d, fun Γ hinp => evaluable_effect typed regular hd hinp, fun after => ?_⟩
      rewrite [ruleAssertion, hliteral, hd, hto]
      rfl
    | some m =>
      obtain ⟨j, hj⟩ := index?_name sensible (hnext m hto)
      refine ⟨d.set .state (.word (ofList is).states.width j), fun Γ hinp v => ?_, fun after => ?_⟩
      · by_cases hv : v = .state
        · subst hv
          exact .word (MicroStates.width_pos _) narrow
            (MicroStates.lt_of_getElem? (MicroStates.getElem?_of_index? hj))
        · rw [Draft.set_state_apply _ _ hv]
          exact evaluable_effect typed regular hd hinp v
      · have hliteral' : (ofList is).states.literal m.name =
            .ok (.word (ofList is).states.width j) := by
          rw [MicroStates.literal, hj]
        rewrite [ruleAssertion, hliteral, hd, hto]
        dsimp only
        rewrite [hliteral']
        rfl
  refine ⟨⟨r.condition inp (.eq (inp .state) (.word (ofList is).states.width k)), d'⟩, hassert,
    ⟨k, hk, fun I => ?_⟩, hd'⟩
  unfold Rule.condition
  cases hguard : r.guard with
  | none => simp
  | some g => simp [Interpretation.holds_all]

/-! ## Determinism -/

section Lists

variable {α β ε : Type} {P : α → β → Prop}

theorem exists_forall₂ {l : List α} (h : ∀ a ∈ l, ∃ b, P a b) : ∃ bs, List.Forall₂ P l bs := by
  induction l with
  | nil => exact ⟨[], .nil⟩
  | cons a rest ih =>
    obtain ⟨⟨b, hb⟩, hrest⟩ := List.forall_mem_cons.1 h
    obtain ⟨bs, hbs⟩ := ih hrest
    exact ⟨b :: bs, .cons hb hbs⟩

theorem mapM_of_forall₂ {γ : Type} {f : α → Except ε γ} {g : β → γ} {l : List α} {bs : List β}
    (h : List.Forall₂ (fun a b => f a = .ok (g b)) l bs) : l.mapM f = .ok (bs.map g) := by
  induction h with
  | nil => rfl
  | cons hab _ ih => rw [List.mapM_cons, hab, ih]; rfl

theorem exists_of_forall₂_of_mem {l : List α} {bs : List β} (h : List.Forall₂ P l bs) {b : β}
    (hb : b ∈ bs) : ∃ a, P a b := by
  induction h with
  | nil => cases hb
  | cons hab _ ih =>
    rcases List.mem_cons.1 hb with rfl | hb
    · exact ⟨_, hab⟩
    · exact ih hb

open Classical in
theorem countP_of_forall₂ {p : α → Prop} {q : β → Prop} {l : List α} {bs : List β}
    (h : List.Forall₂ (fun a b => q b ↔ p a) l bs) : bs.countP q = l.countP p := by
  induction h with
  | nil => rfl
  | cons hab _ ih => simp only [List.countP_cons, ih, hab]

end Lists

/-- The symbols that are bound to the inputs have values. -/
def Assigns (mc : Processor) (ins : Binding) (values : (v : Variable) → BitVec (mc.width v))
    (I : Interpretation) : Prop :=
  ∀ v, I.denote (ins.term v.name) = .bits (mc.width v) (values v)

open Classical in
/-- A cycle is generated as one implication for each rule, at most one condition is true, and each
consequent gives every output one value, which depends on the inputs alone. -/
structure Deterministic (is : List Instruction) (mc : Processor) (ins outs : Binding)
    (cases : List Case) : Prop where
  generate : mc.cycle.generate ins outs = .ok (.note "cpu cycle" :: mc.declareOutputs outs ++
    cases.map fun c => c.command fun v => outs.term v.name)
  length : cases.length = mc.rules.length
  at_most_one : ∀ values I, Assigns mc ins values I →
    cases.countP (fun c => I.Holds c.condition) ≤ 1
  exactly_one : ∀ values I, Assigns mc ins values I →
    (values .state).toNat < mc.states.size →
    (mc.states.names[(values .state).toNat]? = some MicroState.instructionFetch.name →
      ∃ i ∈ is, i.opcode.toBitVec = values .dataIn) →
    cases.countP (fun c => I.Holds c.condition) = 1
  fixes : ∀ values, ∀ c ∈ cases, ∃ next : (v : Variable) → BitVec (mc.width v),
    ∀ I, Assigns mc ins values I → (I.Holds (c.consequent fun v => outs.term v.name) ↔
      ∀ v ∈ Variable.outputs, I.denote (outs.term v.name) = .bits (mc.width v) (next v))

section Assigned

variable {is : List Instruction} {ins : Binding} {values : (v : Variable) → BitVec _}
  {I : Interpretation} {r : Rule} {c : Case}

/-- The condition of a case holds if its rule fires in the micro-state that the inputs are in. -/
theorem holds_condition (sensible : Sensible is) (hI : Assigns (ofList is) ins values I)
    (hc : IsCase (ofList is) (fun v => ins.term v.name) r c) : I.Holds c.condition ↔
      ∃ n, (ofList is).states.names[(values .state).toNat]? = some n ∧
        Fires I (fun v => ins.term v.name) n r := by
  obtain ⟨k, hk, hiff⟩ := hc.condition
  have hname := MicroStates.getElem?_of_index? hk
  have hstate : I.Holds (.eq (ins.term Variable.state.name) (.word (ofList is).states.width k)) ↔
      (values .state).toNat = k := MicroStates.holds_eq_code (hI .state) hname
  rw [hiff, hstate]
  constructor
  · rintro ⟨rfl, hguard⟩
    exact ⟨_, hname, rfl, hguard⟩
  · rintro ⟨n, hn, rfl, hguard⟩
    have hsame := MicroStates.index?_of_getElem? sensible.names hn
    exact ⟨Option.some.inj (hsame.symm.trans hk), hguard⟩

/-- The consequent of a case gives each output one value. -/
theorem exists_next (outs : Binding)
    (hc : IsCase (ofList is) (fun v => ins.term v.name) r c) :
    ∃ next : (v : Variable) → BitVec ((ofList is).width v), ∀ I, Assigns (ofList is) ins values I →
      (I.Holds (c.consequent fun v => outs.term v.name) ↔ ∀ v ∈ Variable.outputs,
        I.denote (outs.term v.name) = .bits ((ofList is).width v) (next v)) := by
  by_cases hsome : ∃ I, Assigns (ofList is) ins values I
  swap
  · exact ⟨fun _ => 0, fun I hI => absurd ⟨I, hI⟩ hsome⟩
  obtain ⟨I, hI⟩ := hsome
  let sig : Signature := Variable.inputs.map fun v =>
    ((ins.symbol v.name).name, .bits ((ofList is).width v))
  have typed := hc.typed (fun x k => (x, k) ∈ sig) fun v =>
    .symbol (List.mem_map_of_mem (mem_inputs v))
  have fits : I.Fits sig := by
    intro x k hx
    obtain ⟨v, -, hv⟩ := List.mem_map.1 hx
    cases hv
    exact congrArg Meaning.kind (hI v)
  have hvalue : ∀ v, ∃ b, I.denote (c.draft v) = .bits ((ofList is).width v) b := fun v =>
    Meaning.exists_bits_of_kind
      (I.kind_denote fits _ _ ((typed v).proper fun _ _ h => h).kind)
  choose next hnext using hvalue
  refine ⟨next, fun J hJ => ?_⟩
  have hsame : ∀ v, J.denote (c.draft v) = I.denote (c.draft v) := by
    refine fun v => (typed v).denote_congr fun x k hx => ?_
    obtain ⟨w, -, hw⟩ := List.mem_map.1 hx
    cases hw
    exact (hJ w).trans (hI w).symm
  simp only [Case.consequent, Interpretation.holds_all, List.forall_mem_map, Term.eq,
    Interpretation.holds_eq, hsame, hnext]

end Assigned

open Classical in
/-- The next state is a function of the state, for any list of instructions that a processor can be
made of, with opcodes that are told apart and with registers for the operands. -/
theorem deterministic_of_ofInstructions {is : List Instruction} {mc : Processor}
    (hmc : ofInstructions is = .ok mc) (hopcodes : (is.map Instruction.opcode).Nodup)
    (hmnemonics : ∀ i ∈ is, i.effect = .read ∨ i.effect = .write →
      i.mnemonic ∈ ["LDA", "LDX", "LDY", "STA", "STX", "STY"]) :
    mc.states.Coded ∧
    (∀ r ∈ mc.rules, r.state.name ∈ mc.states.names ∧
      ∀ m, r.next = some m → m.name ∈ mc.states.names) ∧
    ∀ ins outs : Binding, ∃ cases, Deterministic is mc ins outs cases := by
  obtain ⟨rfl, sensible⟩ := eq_of_ofInstructions hmc
  have narrow := width_states_le hopcodes
  have registered : ∀ i ∈ is, Registered i := fun i hi => registered_of_mnemonic (hmnemonics i hi)
  refine ⟨coded_ofList sensible hopcodes, fun r hr => ?_, fun ins outs => ?_⟩
  · obtain ⟨hstate, hnext⟩ := states_of_mem sensible hr
    simp only [ofList, MicroStates.ofList, List.mem_toArray]
    exact ⟨List.mem_map_of_mem hstate, fun m hm => List.mem_map_of_mem (hnext m hm)⟩
  obtain ⟨cases, hcases⟩ := exists_forall₂ fun r hr =>
    exists_case sensible narrow registered hr fun v => ins.term v.name
  have hcount : ∀ values I, Assigns (ofList is) ins values I → ∀ n,
      (ofList is).states.names[(values .state).toNat]? = some n →
      cases.countP (fun c => I.Holds c.condition) =
        (allRules is).countP (Fires I (fun v => ins.term v.name) n) := by
    intro values I hI n hn
    refine countP_of_forall₂ (hcases.imp fun r c hc => ?_)
    rw [holds_condition sensible hI hc, hn]
    simp
  refine ⟨cases, ⟨?_, hcases.length_eq.symm, fun values I hI => ?_,
    fun values I hI hlt hopcode => ?_, fun values c hc => ?_⟩⟩
  · have hrules : (ofList is).rules.mapM ((ofList is).ruleAssertion (fun v => ins.term v.name)
        fun v => outs.term v.name) = .ok (cases.map fun c => c.command fun v => outs.term v.name) :=
      mapM_of_forall₂ (hcases.imp fun r c hc => hc.command _)
    rw [cycle]
    simp only [hrules]
    rfl
  · cases hn : (ofList is).states.names[(values .state).toNat]? with
    | none =>
      -- the number is the code of no micro-state
      refine (Nat.le_of_eq (List.countP_eq_zero.2 fun c hc => ?_)).trans (Nat.zero_le 1)
      obtain ⟨r, hr⟩ := exists_of_forall₂_of_mem hcases hc
      simp [holds_condition sensible hI hr, hn]
    | some n =>
      rw [hcount values I hI n hn]
      exact countP_allRules_le sensible hopcodes (hI .resetSequence) (hI .dataIn) n
  · have hn := Array.getElem?_eq_getElem hlt
    rw [hcount values I hI _ hn]
    refine countP_allRules_eq_one sensible hopcodes (hI .resetSequence) (hI .dataIn) ?_ ?_
    · exact List.mem_toArray.1 (Array.getElem_mem hlt)
    · exact fun hfetch => hopcode (hn.trans (congrArg some hfetch.symm))
  · obtain ⟨r, hr⟩ := exists_of_forall₂_of_mem hcases hc
    exact exists_next outs hr

/-- Some instructions: a load, two with a fix-up cycle, of which one is always taken, and one
without an operand. -/
def fewInstructions : List Instruction := [
  ⟨0xa9, "LDA", 2, 2, .immediate, false, .read⟩,
  ⟨0x9d, "STA", 3, 5, .absoluteIndexedX, false, .write⟩,
  ⟨0xb1, "LDA", 2, 5, .indirectIndexed, true, .read⟩,
  ⟨0x18, "CLC", 1, 2, .implied, false, .internal⟩]

theorem deterministic_fewInstructions : (ofList fewInstructions).states.Coded ∧
    (ofList fewInstructions).states.width = 4 ∧
    ∀ ins outs : Binding, ∃ cases, Deterministic fewInstructions (ofList fewInstructions) ins outs
      cases ∧ cases.length = 24 := by
  have hmc : ofInstructions fewInstructions = .ok (ofList fewInstructions) := rfl
  obtain ⟨coded, -, hcycle⟩ := deterministic_of_ofInstructions hmc (by decide) (by decide)
  refine ⟨coded, by decide +kernel, fun ins outs => ?_⟩
  obtain ⟨cases, hcases⟩ := hcycle ins outs
  exact ⟨cases, hcases, hcases.length⟩

end CycleCheck.Processor
