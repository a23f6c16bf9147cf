import CycleCheck.Proofs.Cycle.Rules
import CycleCheck.Proofs.Term.Clause

/-!
Sorts of rules. The parts that rules are made of keep the sorts of drafts, so if the variables
before a cycle have their widths, so have the terms of the outputs, and guards are boolean. The
addressing modes share the forms of their rules, so each form is looked at once.
-/

namespace CycleCheck.Processor

/-- The forms of the rules of an instruction. -/
inductive RuleForm (i : Instruction) : Rule → Prop where
  | implied : RuleForm i (plainRule (.cycle i.label 1) .instructionFetch fun inp =>
      let d := match flagOperation? i.mnemonic with
        | some (flag, on) => Draft.set inp .p (withBit (inp .p) flag.bit (.bit on))
        | none => inp
      .ok ((d.fetch inp).incrementPC inp))
  | last (n : Nat) : RuleForm i (plainRule (.cycle i.label n) .instructionFetch (finish i))
  | zeroPage : RuleForm i (plainRule (.cycle i.label 1) (.cycle i.label 2) fun inp =>
      access i inp inp (zeroPage (inp .dataIn)))
  | zeroPageBase : RuleForm i (plainRule (.cycle i.label 1) (.cycle i.label 2) fun inp =>
      .ok ((Draft.read inp (zeroPage (inp .dataIn))).set .tempAddress (zeroPage (inp .dataIn))))
  | zeroPageIndexed : RuleForm i (plainRule (.cycle i.label 2) (.cycle i.label 3) fun inp =>
      access i inp inp (zeroPage (.add (lowByte (inp .tempAddress)) (inp (indexRegister i.mode)))))
  | lowAddress : RuleForm i (lowAddressRule i)
  | absoluteAccess (n : Nat) : RuleForm i (absoluteAccessRule i n)
  | pointer : RuleForm i (pointerRule i)
  | pointerIndexed : RuleForm i (plainRule (.cycle i.label 2) (.cycle i.label 3) fun inp =>
      let pointer := Term.add (inp .tempPointer) (inp .x)
      .ok ((Draft.set inp .tempPointer pointer).read (zeroPage pointer)))
  | pointerHigh (n : Nat) : RuleForm i (pointerHighRule i n)
  | indexed {fetch next fixup : MicroState} {r : Rule} (hr : r ∈ indexedRules i fetch next fixup) :
      RuleForm i r

theorem ruleForm_of_mem {i : Instruction} {r : Rule} (hr : r ∈ instructionRules i) :
    RuleForm i r := by
  unfold instructionRules at hr
  cases hmode : i.mode <;> simp only [hmode, List.cons_append, List.mem_cons, List.mem_append,
    List.not_mem_nil, or_false] at hr
  case implied => exact hr ▸ .implied
  case immediate => exact hr ▸ .last 1
  case zeroPage =>
    rcases hr with rfl | rfl
    · exact .zeroPage
    · exact .last 2
  case zeroPageIndexedX | zeroPageIndexedY =>
    rcases hr with rfl | rfl | rfl
    · exact .zeroPageBase
    · exact hmode ▸ .zeroPageIndexed
    · exact .last 3
  case absolute =>
    rcases hr with rfl | rfl | rfl
    · exact .lowAddress
    · exact .absoluteAccess 2
    · exact .last 3
  case absoluteIndexedX | absoluteIndexedY =>
    rcases hr with rfl | hr | rfl
    · exact .lowAddress
    · exact .indexed hr
    · exact .last 3
  case indexedIndirect =>
    rcases hr with rfl | rfl | rfl | rfl | rfl
    · exact .pointer
    · exact .pointerIndexed
    · exact .pointerHigh 3
    · exact .absoluteAccess 4
    · exact .last 5
  case indirectIndexed =>
    rcases hr with rfl | rfl | hr | rfl
    · exact .pointer
    · exact .pointerHigh 2
    · exact .indexed hr
    · exact .last 4

end CycleCheck.Processor

namespace CycleCheck.Cycle

open Processor

/-- The width of a variable. -/
def bitsOf : Variable → Nat
  | .state => 7
  | v => v.width

theorem width_eq (v : Variable) : Processor.standard.width v = bitsOf v := by
  cases v with
  | state => exact width_states
  | _ => rfl

/-- The terms of a draft have the widths of their variables. -/
def Typed (Γ : Scope) (d : Draft) : Prop := ∀ v, (d v).Evaluable Γ (.bits (bitsOf v))

section Terms

variable {Γ : Scope} {a b : Term}

theorem evaluable_zeroPage (ha : a.Evaluable Γ (.bits 8)) : (zeroPage a).Evaluable Γ (.bits 16) :=
  .concat (v := 8) (w := 8) (by decide) (.word (by decide) (by decide) (by decide)) ha

theorem evaluable_lowByte (ha : a.Evaluable Γ (.bits 16)) : (lowByte a).Evaluable Γ (.bits 8) :=
  .extract (by decide) (by decide) (by decide) ha

theorem evaluable_increment (ha : a.Evaluable Γ (.bits 16)) :
    (Term.add a (.word 16 1)).Evaluable Γ (.bits 16) :=
  ha.add (.word (by decide) (by decide) (by decide))

theorem evaluable_carry (ha : a.Evaluable Γ (.bits 8)) (hb : b.Evaluable Γ (.bits 8)) :
    (carry a b).Evaluable Γ .truth := by
  have hsum : (Term.add (.zeroExtend 1 a) (.zeroExtend 1 b)).Evaluable Γ (.bits 9) :=
    .add (.zeroExtend (w := 8) (by decide) ha) (.zeroExtend (w := 8) (by decide) hb)
  exact hsum.uge (.word (by decide) (by decide) (by decide))

theorem evaluable_withBit (f : Flag) (ha : a.Evaluable Γ (.bits 8)) (hb : b.Evaluable Γ (.bits 1)) :
    (withBit a f.bit b).Evaluable Γ (.bits 8) := by
  have hpart : ∀ hi lo : Nat, lo ≤ hi → hi < 8 →
      (Term.extract hi lo a).Evaluable Γ (.bits (hi - lo + 1)) :=
    fun hi lo hle hlt => .extract hle hlt (by decide) ha
  cases f with
  | carry => exact .concat (v := 7) (by decide) (hpart 7 1 (by decide) (by decide)) hb
  | zero =>
    exact .concat (v := 6) (by decide) (hpart 7 2 (by decide) (by decide))
      (.concat (by decide) hb (hpart 0 0 (by decide) (by decide)))
  | interruptDisable =>
    exact .concat (v := 5) (by decide) (hpart 7 3 (by decide) (by decide))
      (.concat (by decide) hb (hpart 1 0 (by decide) (by decide)))
  | decimalMode =>
    exact .concat (v := 4) (by decide) (hpart 7 4 (by decide) (by decide))
      (.concat (by decide) hb (hpart 2 0 (by decide) (by decide)))
  | «break» =>
    exact .concat (v := 3) (by decide) (hpart 7 5 (by decide) (by decide))
      (.concat (by decide) hb (hpart 3 0 (by decide) (by decide)))
  | overflow =>
    exact .concat (v := 1) (by decide) (hpart 7 7 (by decide) (by decide))
      (.concat (by decide) hb (hpart 5 0 (by decide) (by decide)))
  | sign => exact .concat (w := 7) (by decide) hb (hpart 6 0 (by decide) (by decide))

theorem evaluable_loadFlags (ha : a.Evaluable Γ (.bits 8)) (hb : b.Evaluable Γ (.bits 8)) :
    (loadFlags a b).Evaluable Γ (.bits 8) := by
  have hzero : (Term.ite (.eq b (.word 8 0)) (.bit true) (.bit false)).Evaluable Γ (.bits 1) :=
    .ite (hb.eq (.word (by decide) (by decide) (by decide))) (.bit true) (.bit false)
  have hlow : (Term.extract 0 0 a).Evaluable Γ (.bits 1) :=
    .extract (by decide) (by decide) (by decide) ha
  have hmiddle : (Term.extract 6 2 a).Evaluable Γ (.bits 5) :=
    .extract (by decide) (by decide) (by decide) ha
  have hsign : (Term.extract 7 7 b).Evaluable Γ (.bits 1) :=
    .extract (by decide) (by decide) (by decide) hb
  exact hsign.concat (w := 7) (by decide) (hmiddle.concat (w := 2) (by decide)
    (hzero.concat (by decide) hlow))

end Terms

namespace Typed

variable {Γ : Scope} {inp d t : Draft} {u : Term} {i : Instruction}

theorem set (h : Typed Γ d) (v : Variable) (hu : u.Evaluable Γ (.bits (bitsOf v))) :
    Typed Γ (d.set v u) := by
  intro w
  unfold Draft.set
  split_ifs with hw
  · rwa [hw]
  · exact h w

theorem read (h : Typed Γ d) (hu : u.Evaluable Γ (.bits 16)) : Typed Γ (d.read u) :=
  (h.set .addressBus hu).set .writeEnable (.bit false)

theorem write (h : Typed Γ d) (hu : u.Evaluable Γ (.bits 16)) {data : Term}
    (hdata : data.Evaluable Γ (.bits 8)) : Typed Γ (d.write u data) :=
  ((h.set .addressBus hu).set .writeEnable (.bit true)).set .dataOut hdata

theorem fetch (h : Typed Γ d) (hinp : Typed Γ inp) : Typed Γ (d.fetch inp) := h.read (hinp .pc)

theorem incrementPC (h : Typed Γ d) (hinp : Typed Γ inp) : Typed Γ (d.incrementPC inp) :=
  h.set .pc (evaluable_increment (hinp .pc))

theorem low (h : Typed Γ inp) : (lowByte (inp .tempAddress)).Evaluable Γ (.bits 8) :=
  evaluable_lowByte (h .tempAddress)

theorem index (h : Typed Γ inp) (mode : AddressingMode) :
    (inp (indexRegister mode)).Evaluable Γ (.bits 8) := by
  cases mode <;> exact h _

/-- The address made of the byte on the data bus and a low byte. -/
theorem joined (h : Typed Γ inp) (hu : u.Evaluable Γ (.bits 8)) :
    (Term.concat (inp .dataIn) u).Evaluable Γ (.bits 16) :=
  .concat (v := 8) (w := 8) (by decide) (h .dataIn) hu

theorem register_width {r : Variable} (h : register i = .ok r) : bitsOf r = 8 := by
  unfold register at h
  split_ifs at h <;> cases h <;> rfl

theorem access (hinp : Typed Γ inp) (h : Typed Γ d) (hu : u.Evaluable Γ (.bits 16))
    (ht : Processor.access i inp d u = .ok t) : Typed Γ t := by
  unfold Processor.access at ht
  split at ht
  · cases ht
    exact h.read hu
  · cases hr : register i with
    | error e => simp [hr] at ht
    | ok r =>
      simp only [hr] at ht
      cases ht
      have hvalue := hinp r
      rw [register_width hr] at hvalue
      exact h.write hu hvalue
  · cases ht
    exact h

theorem finish (hinp : Typed Γ inp) (ht : Processor.finish i inp = .ok t) : Typed Γ t := by
  unfold Processor.finish at ht
  split_ifs at ht
  · cases hr : register i with
    | error e => simp [hr] at ht
    | ok r =>
      simp only [hr] at ht
      cases ht
      have hloaded : (inp .dataIn).Evaluable Γ (.bits (bitsOf r)) := by
        rw [register_width hr]
        exact hinp .dataIn
      exact (((hinp.set r hloaded).set .p (evaluable_loadFlags (hinp .p) (hinp .dataIn))).fetch
        hinp).incrementPC hinp
  · cases ht
    exact (hinp.fetch hinp).incrementPC hinp

end Typed

/-- A rule keeps sorts. -/
structure TypedRule (r : Rule) : Prop where
  guard : ∀ g, r.guard = some g → ∀ {Γ : Scope} {inp : Inputs}, Typed Γ inp →
    (g inp).Evaluable Γ .truth
  effect : ∀ {Γ : Scope} {inp : Inputs} {t : Draft}, Typed Γ inp → r.effect inp = .ok t → Typed Γ t

theorem typed_resetRule {phase : Nat} (hphase : phase < 8) {next : Option MicroState}
    {effect : Inputs → Draft → Draft}
    (heffect : ∀ {Γ : Scope} {inp d : Draft}, Typed Γ inp → Typed Γ d → Typed Γ (effect inp d)) :
    TypedRule (resetRule phase next effect) where
  guard g hg Γ inp hinp := by
    cases hg
    exact (hinp .resetSequence).eq (.word (by decide) (by decide) hphase)
  effect hinp ht := by
    cases ht
    exact heffect hinp (hinp.set .resetSequence
      (.word (by decide) (by decide) (Nat.mod_lt _ (by decide))))

theorem typed_stackRead {Γ : Scope} {inp d : Draft} (hinp : Typed Γ inp) (hd : Typed Γ d) :
    Typed Γ (stackRead inp d) :=
  (hd.read (.concat (v := 8) (w := 8) (by decide) (.word (by decide) (by decide) (by decide))
    (hinp .sp))).set .sp ((hinp .sp).sub (.word (by decide) (by decide) (by decide)))

theorem typed_of_mem_resetRules {r : Rule} (hr : r ∈ resetRules) : TypedRule r := by
  simp only [resetRules, List.mem_cons, List.not_mem_nil, or_false] at hr
  rcases hr with rfl | rfl | rfl | rfl | rfl | rfl | rfl | rfl
  · exact typed_resetRule (by decide) fun hinp hd => hd.fetch hinp
  · exact typed_resetRule (by decide) fun hinp hd => hd.fetch hinp
  · exact typed_resetRule (by decide) typed_stackRead
  · exact typed_resetRule (by decide) typed_stackRead
  · exact typed_resetRule (by decide) typed_stackRead
  · exact typed_resetRule (by decide) fun hinp hd =>
      (hd.read (.word (by decide) (by decide) (by decide))).set .p
        (evaluable_withBit .interruptDisable (hinp .p) (.bit true))
  · exact typed_resetRule (by decide) fun hinp hd =>
      (hd.read (.word (by decide) (by decide) (by decide))).set .tempAddress
        (evaluable_zeroPage (hinp .dataIn))
  · exact typed_resetRule (by decide) fun hinp hd =>
      (hd.read (hinp.joined hinp.low)).set .pc (evaluable_increment (hinp.joined hinp.low))

theorem typed_decodeRule (i : Instruction) : TypedRule (decodeRule i) where
  guard g hg Γ inp hinp := by
    cases hg
    exact (hinp .dataIn).eq (.word (by decide) (by decide) i.opcode.toNat_lt)
  effect hinp ht := by
    cases ht
    split_ifs
    · exact hinp.fetch hinp
    · exact (hinp.fetch hinp).incrementPC hinp

theorem typed_plainRule {state next : MicroState} {effect : Inputs → Except ProcessorError Draft}
    (heffect : ∀ {Γ : Scope} {inp : Inputs} {t : Draft}, Typed Γ inp → effect inp = .ok t →
      Typed Γ t) : TypedRule (plainRule state next effect) where
  guard g hg := by cases hg
  effect := heffect

theorem typed_draftRule {state next : MicroState} {draft : Inputs → Draft}
    (hdraft : ∀ {Γ : Scope} {inp : Inputs}, Typed Γ inp → Typed Γ (draft inp)) :
    TypedRule (plainRule state next fun inp => .ok (draft inp)) :=
  typed_plainRule fun hinp ht => by
    cases ht
    exact hdraft hinp

/-- A cycle that accesses the operand. -/
theorem typed_accessRule {state next : MicroState} (i : Instruction) {u : Inputs → Term}
    (hu : ∀ {Γ : Scope} {inp : Inputs}, Typed Γ inp → (u inp).Evaluable Γ (.bits 16)) :
    TypedRule (plainRule state next fun inp => access i inp inp (u inp)) :=
  typed_plainRule fun hinp ht => hinp.access hinp (hu hinp) ht

theorem typed_lastRule {state next : MicroState} (i : Instruction) :
    TypedRule (plainRule state next (finish i)) :=
  typed_plainRule fun hinp ht => hinp.finish ht

theorem typed_lowAddressRule (i : Instruction) : TypedRule (lowAddressRule i) :=
  typed_draftRule fun hinp =>
    ((hinp.set .tempAddress (evaluable_zeroPage (hinp .dataIn))).fetch hinp).incrementPC hinp

theorem typed_pointerRule (i : Instruction) : TypedRule (pointerRule i) :=
  typed_draftRule fun hinp =>
    (hinp.read (evaluable_zeroPage (hinp .dataIn))).set .tempPointer (hinp .dataIn)

theorem typed_pointerHighRule (i : Instruction) (n : Nat) : TypedRule (pointerHighRule i n) :=
  typed_draftRule fun hinp =>
    (hinp.set .tempAddress (evaluable_zeroPage (hinp .dataIn))).read (evaluable_zeroPage
      ((hinp .tempPointer).add (.word (by decide) (by decide) (by decide))))

theorem typed_absoluteAccessRule (i : Instruction) (n : Nat) : TypedRule (absoluteAccessRule i n) :=
  typed_accessRule i fun hinp => hinp.joined hinp.low

theorem typed_of_mem_indexedRules {i : Instruction} {fetch next fixup : MicroState} {r : Rule}
    (hr : r ∈ indexedRules i fetch next fixup) : TypedRule r := by
  have hbased : ∀ {Γ : Scope} {inp : Inputs}, Typed Γ inp →
      Typed Γ (Draft.set inp .tempAddress (.concat (inp .dataIn) (lowByte (inp .tempAddress)))) :=
    fun hinp => hinp.set .tempAddress (hinp.joined hinp.low)
  have haddress : ∀ {Γ : Scope} {inp : Inputs}, Typed Γ inp → (Term.concat (inp .dataIn)
      (.add (lowByte (inp .tempAddress)) (inp (indexRegister i.mode)))).Evaluable Γ (.bits 16) :=
    fun hinp => hinp.joined (hinp.low.add (hinp.index i.mode))
  have hcarry : ∀ {Γ : Scope} {inp : Inputs}, Typed Γ inp →
      (carry (lowByte (inp .tempAddress)) (inp (indexRegister i.mode))).Evaluable Γ .truth :=
    fun hinp => evaluable_carry hinp.low (hinp.index i.mode)
  have hfixup : TypedRule (plainRule fixup next fun inp =>
      access i inp inp (.add (inp .tempAddress) (.zeroExtend 8 (inp (indexRegister i.mode))))) :=
    typed_accessRule i fun hinp => (hinp .tempAddress).add
      (.zeroExtend (w := 8) (by decide) (hinp.index i.mode))
  unfold indexedRules at hr
  rcases List.mem_append.1 hr with hr | hr
  · split_ifs at hr
    · simp only [List.mem_cons, List.not_mem_nil, or_false] at hr
      rcases hr with rfl | rfl
      · exact ⟨fun g hg _ _ hinp => by cases hg; exact (hcarry hinp).not,
          fun hinp ht => hinp.access (hbased hinp) (haddress hinp) ht⟩
      · exact ⟨fun g hg _ _ hinp => by cases hg; exact hcarry hinp,
          fun hinp ht => by cases ht; exact (hbased hinp).read (haddress hinp)⟩
    · rw [List.mem_singleton.1 hr]
      exact typed_draftRule fun hinp => (hbased hinp).read (haddress hinp)
  · rw [List.mem_singleton.1 hr]
    exact hfixup

theorem typed_of_mem_instructionRules {i : Instruction} {r : Rule} (hr : r ∈ instructionRules i) :
    TypedRule r := by
  cases ruleForm_of_mem hr with
  | implied =>
    refine typed_draftRule fun hinp => ?_
    split
    · exact ((hinp.set .p (evaluable_withBit _ (hinp .p) (.bit _))).fetch hinp).incrementPC hinp
    · exact (hinp.fetch hinp).incrementPC hinp
  | last => exact typed_lastRule i
  | zeroPage => exact typed_accessRule i fun hinp => evaluable_zeroPage (hinp .dataIn)
  | zeroPageBase =>
    exact typed_draftRule fun hinp => (hinp.read (evaluable_zeroPage (hinp .dataIn))).set
      .tempAddress (evaluable_zeroPage (hinp .dataIn))
  | zeroPageIndexed =>
    exact typed_accessRule i fun hinp => evaluable_zeroPage (hinp.low.add (hinp.index _))
  | lowAddress => exact typed_lowAddressRule i
  | absoluteAccess n => exact typed_absoluteAccessRule i n
  | pointer => exact typed_pointerRule i
  | pointerIndexed =>
    refine typed_draftRule fun hinp => ?_
    have hpointer := (hinp .tempPointer).add (hinp .x)
    exact (hinp.set .tempPointer hpointer).read (evaluable_zeroPage hpointer)
  | pointerHigh n => exact typed_pointerHighRule i n
  | indexed hr => exact typed_of_mem_indexedRules hr

theorem typed_of_mem {r : Rule} (hr : r ∈ Processor.standard.rules) : TypedRule r := by
  change r ∈ allRules Instruction.table at hr
  rw [allRules, List.mem_append, List.mem_append, List.mem_map, List.mem_flatMap] at hr
  rcases hr with (hr | ⟨i, -, rfl⟩) | ⟨i, -, hr⟩
  · exact typed_of_mem_resetRules hr
  · exact typed_decodeRule i
  · exact typed_of_mem_instructionRules hr

end CycleCheck.Cycle
