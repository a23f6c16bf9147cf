import CycleCheck.Proofs.Cycle.Bus
import CycleCheck.Proofs.Timeline.Sorted

/-!
The bus for any slots. The pages need not be all served, nor served once, and the slots stand in any
order. The front half selects the slots of the addressed page and shows every slot the signals of
the processor. The back half can be met if the selected slots give the same data; the processor
gets it then, and any byte if there is none.
-/

namespace CycleCheck.Cycle

open Processor Memory

/-! ## Lines -/

/-- The lines between the bus and a slot. -/
inductive Line where
  | select
  | address
  | write
  | data
  | answer
deriving DecidableEq

namespace Line

def suffix : Line → String
  | .select => "ChipSelect"
  | .address => "Address"
  | .write => "WriteEnable"
  | .data => "DataIn"
  | .answer => "DataOut"

def name (stem : String) (l : Line) : String := stem ++ l.suffix

/-- The lines that the front half drives. -/
def inputs : List Line := [.select, .address, .write, .data]

/-- The last two letters tell the lines apart. -/
theorem reverse_name (stem : String) (l : Line) :
    (name stem l).toList.reverse.take 2 = l.suffix.toList.reverse.take 2 := by
  rw [name, String.toList_append, List.reverse_append, List.take_append_of_le_length]
  cases l <;> decide

theorem name_injective {stem stem' : String} {l l' : Line} (h : name stem l = name stem' l') :
    stem = stem' ∧ l = l' := by
  have hletters : l.suffix.toList.reverse.take 2 = l'.suffix.toList.reverse.take 2 := by
    rw [← reverse_name stem, ← reverse_name stem', h]
  have hline : l = l' := by
    revert hletters
    cases l <;> cases l' <;> decide
  subst hline
  have hlists := congrArg String.toList h
  rw [name, name, String.toList_append, String.toList_append] at hlists
  exact ⟨String.toList_inj.1 (List.append_cancel_right hlists), rfl⟩

end Line

/-- Slots on the sixteen pages, with different stems whose lines have proper names that no variable
of the processor has. -/
structure Configured (slots : List Slot) : Prop where
  pages : ∀ s ∈ slots, 0 ≤ s.page ∧ s.page < 16
  stems : (slots.map Slot.stem).Nodup
  names : ∀ s ∈ slots, ∀ l : Line, IsName (l.name s.stem)
  foreign : ∀ s ∈ slots, ∀ (l : Line) (v : Variable), l.name s.stem ≠ v.name

/-- The slot is on the page of an address. -/
def Covers (s : Slot) (address : BitVec 16) : Prop := s.page = (address >>> 12).toNat

instance (s : Slot) (address : BitVec 16) : Decidable (Covers s address) := by
  unfold Covers
  infer_instance

/-- The value of a line, for the outputs of the processor and the data of the slots. -/
def lineValue (c : Cpu) (out : Slot → BitVec 8) (s : Slot) : Line → Meaning
  | .select => .bits 1 (if Covers s c.addressBus then 1 else 0)
  | .address => .bits 16 c.addressBus
  | .write => .bits 1 c.writeEnable
  | .data => .bits 8 c.dataOut
  | .answer => .bits 8 (out s)

def Line.kind : Line → Kind
  | .select | .write => .bits 1
  | .address => .bits 16
  | .data | .answer => .bits 8

theorem kind_lineValue (c : Cpu) (out : Slot → BitVec 8) (s : Slot) (l : Line) :
    (lineValue c out s l).kind = l.kind := by
  cases l <;> rfl

theorem selects_eq (c : Cpu) {s : Slot} {page : Fin 16} (hpage : s.page = page.val) :
    c.selects page = if Covers s c.addressBus then 1 else 0 := by
  have hcovers : Covers s c.addressBus ↔ c.page = page := by
    rw [Covers, hpage, Int.natCast_inj, BitVec.toNat_ushiftRight, Nat.shiftRight_eq_div_pow,
      Cpu.page]
    exact eq_comm
  by_cases h : c.page = page
  · rw [if_pos (hcovers.2 h), selects_eq_one.2 h]
  · rw [if_neg (mt hcovers.1 h), Cpu.selects, beq_eq_false_iff_ne.2 h]
    rfl

theorem Configured.exists_page {slots : List Slot} (h : Configured slots) :
    ∀ s ∈ slots, ∃ page : Fin 16, s.page = page.val := by
  intro s hs
  obtain ⟨hnonneg, hlt⟩ := h.pages s hs
  exact ⟨⟨s.page.toNat, by omega⟩, (Int.toNat_of_nonneg hnonneg).symm⟩

section Blocks

variable {slots : List Slot} {t : Timeline} {I : Interpretation} {c : Cpu} {out : Slot → BitVec 8}

/-! ## The blocks of the bus -/

theorem signature_slotCommands (inp out : Binding) (s : Slot) :
    Formula.signature (slotCommands inp out s) =
      Line.inputs.map fun l => ((out.symbol (l.name s.stem)).name, l.kind) := rfl

theorem mem_writes_frontHalf {x : String} : x ∈ (frontHalf slots).writes ↔
    ∃ s ∈ slots, ∃ l ∈ Line.inputs, x = Line.name s.stem l := by
  change x ∈ slots.flatMap (fun s => Line.inputs.map (Line.name s.stem)) ↔ _
  simp [List.mem_flatMap, List.mem_map, eq_comm]

/-- The signals of the processor that the bus reads. -/
def busSources : List Variable := [.addressBus, .writeEnable, .dataOut]

/-- The front half gives the lines that it drives their values. -/
theorem exists_apply_frontHalf (h : Configured slots)
    (ht : ∀ v ∈ busSources, 0 < t.next v.name) (out : Slot → BitVec 8) :
    ∃ f, t.apply (frontHalf slots) = .ok (f, t.advance (frontHalf slots).writes) ∧
      f.signature = (slots.flatMap fun s => Line.inputs.map fun l =>
        ((t.fresh (l.name s.stem)).name, l.kind)) ∧
      ∀ (I : Interpretation) (c : Cpu), ShowsBus (fun x => I (t.latest x).name) c → (I.Satisfies f ↔
        ∀ s ∈ slots, ∀ l ∈ Line.inputs,
          I (t.fresh (l.name s.stem)).name = lineValue c out s l) := by
  let inp := Binding.of (busSources.map Variable.name) t.latest
  let outp := Binding.of (frontHalf slots).writes t.fresh
  have hout : ∀ s ∈ slots, ∀ l ∈ Line.inputs,
      outp.symbol (l.name s.stem) = t.fresh (l.name s.stem) := fun s hs l hl =>
    Binding.symbol_of (mem_writes_frontHalf.2 ⟨s, hs, l, hl, rfl⟩)
  have hreads : ∀ x ∈ (frontHalf slots).reads, IsName x ∧ 0 < t.next x := by
    change ∀ x ∈ busSources.map Variable.name, _
    rw [List.forall_mem_map]
    exact fun v hv => ⟨(Wire.cpu v).isName, ht v hv⟩
  have hwrites : ∀ x ∈ (frontHalf slots).writes, IsName x := by
    intro x hx
    obtain ⟨s, hs, l, -, rfl⟩ := mem_writes_frontHalf.1 hx
    exact h.names s hs l
  refine ⟨_, Timeline.apply_eq (fun _ _ => rfl) hreads hwrites
    (generate_frontHalf_slots h.exists_page inp outp), ?_, fun I c hbus => ?_⟩
  · rw [Formula.signature_note, Formula.signature_flatten, List.flatMap_map]
    refine List.flatMap_congr fun s hs => ?_
    rw [signature_slotCommands]
    exact List.map_congr_left fun l hl => by rw [hout s hs l hl]
  · have hread : ∀ v ∈ busSources, I.denote (inp.term v.name) = I (t.latest v.name).name := by
      intro v hv
      rw [Binding.term_of (List.mem_map_of_mem hv)]
      rfl
    rw [Interpretation.satisfies_note, Interpretation.satisfies_flatten, List.forall_mem_map]
    refine forall₂_congr fun s hs => ?_
    obtain ⟨page, hpage⟩ := h.exists_page s hs
    rw [satisfies_slotCommands ((hread .addressBus (by decide)).trans hbus.addressBus)
      ((hread .writeEnable (by decide)).trans hbus.writeEnable)
      ((hread .dataOut (by decide)).trans hbus.dataOut) hpage, selects_eq c hpage]
    have hlines := hout s hs
    simp only [Line.inputs, List.forall_mem_cons, List.not_mem_nil, false_imp_iff, implies_true,
      and_true] at hlines ⊢
    obtain ⟨hselect, haddress, hwrite, hdata⟩ := hlines
    rw [← hselect, ← haddress, ← hwrite, ← hdata]
    rfl

/-- The data of a slot, as a known value. -/
def answerPin (out : Slot → BitVec 8) (s : Slot) : Block :=
  .pin (Slot.dataOut s.stem) 8 (out s).toNat.toUInt64

/-- Pins give the slots their data, and each name one version more. -/
theorem exists_yields_pins (out : Slot → BitVec 8)
    (names : ∀ s ∈ slots, IsName (Line.answer.name s.stem)) (stems : (slots.map Slot.stem).Nodup)
    (t : Timeline) :
    ∃ fs t', t.Yields (slots.map (answerPin out)) fs t' ∧
      (∀ x, t'.next x = t.next x + (slots.map fun s => Line.answer.name s.stem).count x) ∧
      Formula.signature fs.flatten =
        slots.map (fun s => ((t.fresh (Line.answer.name s.stem)).name, Line.answer.kind)) ∧
      ∀ I : Interpretation, I.Satisfies fs.flatten ↔
        ∀ s ∈ slots, I (t.fresh (Line.answer.name s.stem)).name = .bits 8 (out s) := by
  induction slots generalizing t with
  | nil => exact ⟨[], t, .nil, fun x => by simp, rfl, fun I => by simp⟩
  | cons s rest ih =>
    obtain ⟨hname, hnames⟩ := List.forall_mem_cons.1 names
    obtain ⟨hnew, hstems⟩ := List.nodup_cons.1 stems
    let x := Line.answer.name s.stem
    have hne : ∀ s' ∈ rest, Line.answer.name s'.stem ∉ [x] := by
      intro s' hs' hx
      have hstem := (Line.name_injective (List.mem_singleton.1 hx)).1
      exact hnew (hstem ▸ List.mem_map_of_mem hs')
    -- the first pin leaves the names of the others alone
    have hfresh : ∀ s' ∈ rest, (t.advance [x]).fresh (Line.answer.name s'.stem) =
        t.fresh (Line.answer.name s'.stem) := fun s' hs' =>
      Timeline.fresh_advance_of_notMem (hne s' hs')
    obtain ⟨f, happly, hsig, hmodels⟩ := t.exists_apply_pin hname (by decide) (by decide) (out s)
    obtain ⟨fs, t', hyields, hnext, hsigs, hall⟩ := ih hnames hstems (t.advance [x])
    refine ⟨f :: fs, t', .cons happly hyields, fun y => ?_, ?_, fun I => ?_⟩
    · rw [hnext, Timeline.next_advance, List.map_cons, List.count_cons]
      by_cases hy : y = x
      · simp [hy, x]
        omega
      · simp [hy, Ne.symm hy, x]
    · rw [List.flatten_cons, Formula.signature_append, hsig, hsigs, List.map_cons]
      refine congrArg _ (List.map_congr_left fun s' hs' => ?_)
      rw [hfresh s' hs']
    · rw [List.flatten_cons, Interpretation.satisfies_append, hmodels, hall, List.forall_mem_cons]
      exact and_congr_right fun _ => forall₂_congr fun s' hs' => by rw [hfresh s' hs']

/-- The back half gives the processor the data of the slots that are selected. -/
theorem exists_apply_backHalf (h : Configured slots)
    (ht : ∀ s ∈ slots, ∀ l ∈ [Line.select, .answer], 0 < t.next (l.name s.stem))
    (out : Slot → BitVec 8) :
    ∃ f, t.apply (backHalf slots) = .ok (f, t.advance [Variable.dataIn.name]) ∧
      f.signature = [((t.fresh Variable.dataIn.name).name, .bits 8)] ∧
      ∀ (I : Interpretation) (c : Cpu), (∀ s ∈ slots, ∀ l ∈ [Line.select, .answer],
        I (t.latest (l.name s.stem)).name = lineValue c out s l) → (I.Satisfies f ↔
          ∀ s ∈ slots, Covers s c.addressBus →
            I (t.fresh Variable.dataIn.name).name = .bits 8 (out s)) := by
  let outp := Binding.of [Variable.dataIn.name] t.fresh
  have hmem : ∀ {x : String}, x ∈ (backHalf slots).reads ↔
      ∃ s ∈ slots, ∃ l ∈ [Line.select, .answer], x = Line.name s.stem l := by
    intro x
    change x ∈ slots.flatMap (fun s => [Line.select, .answer].map (Line.name s.stem)) ↔ _
    simp only [List.mem_flatMap, List.mem_map, eq_comm]
  have hreads : ∀ x ∈ (backHalf slots).reads, IsName x ∧ 0 < t.next x := by
    intro x hx
    obtain ⟨s, hs, l, hl, rfl⟩ := hmem.1 hx
    exact ⟨h.names s hs l, ht s hs l hl⟩
  have hwrites : ∀ x ∈ (backHalf slots).writes, IsName x := fun x hx =>
    List.mem_singleton.1 hx ▸ (Wire.cpu .dataIn).isName
  have hdata : outp.symbol Variable.dataIn.name = t.fresh Variable.dataIn.name :=
    Binding.symbol_of (List.mem_singleton_self _)
  refine ⟨_, Timeline.apply_eq (fun _ _ => rfl) hreads hwrites rfl, ?_, fun I c hlines => ?_⟩
  · rw [Formula.signature_note, declare, Formula.signature_declareBits,
      Formula.signature_of_asserts (by simp)]
    exact congrArg (fun x : Symbol => [(x.name, Kind.bits 8)]) hdata
  · have hread : ∀ s ∈ slots, ∀ l ∈ [Line.select, .answer],
        I.denote ((Binding.of (backHalf slots).reads t.latest).term (l.name s.stem)) =
          lineValue c out s l := by
      intro s hs l hl
      rw [Binding.term_of (hmem.2 ⟨s, hs, l, hl, rfl⟩)]
      exact hlines s hs l hl
    rw [Interpretation.satisfies_note, declare, Interpretation.satisfies_declareBits,
      Interpretation.satisfies_map_assert]
    refine forall₂_congr fun s hs => ?_
    refine (holds_selected (hread s hs .select (by decide))
      (hread s hs .answer (by decide))).trans (imp_congr ?_ ?_)
    · by_cases hcovers : Covers s c.addressBus <;> simp [hcovers]
    · exact iff_of_eq (congrArg (fun x : Symbol => I x.name = _) hdata)

/-! ## The two halves -/

/-- What comes after the front half: the slots give their data, and the back half takes it. -/
def answering (slots : List Slot) (out : Slot → BitVec 8) : List Block :=
  slots.map (answerPin out) ++ [backHalf slots]

/-- The commands of the two halves, by the versions that they give values. -/
structure Routes (slots : List Slot) (out : Slot → BitVec 8) (t : Timeline)
    (front rest : Formula) : Prop where
  front_signature : front.signature = slots.flatMap fun s => Line.inputs.map fun l =>
    ((t.fresh (l.name s.stem)).name, l.kind)
  rest_signature : rest.signature =
    slots.map (fun s => ((t.fresh (Line.answer.name s.stem)).name, Line.answer.kind)) ++
      [((t.fresh Variable.dataIn.name).name, .bits 8)]
  front_models : ∀ (I : Interpretation) (c : Cpu), ShowsBus (fun x => I (t.latest x).name) c →
    (I.Satisfies front ↔ ∀ s ∈ slots, ∀ l ∈ Line.inputs,
      I (t.fresh (l.name s.stem)).name = lineValue c out s l)
  models : ∀ (I : Interpretation) (c : Cpu), ShowsBus (fun x => I (t.latest x).name) c →
    (I.Satisfies (front ++ rest) ↔
      (∀ s ∈ slots, ∀ l : Line, I (t.fresh (l.name s.stem)).name = lineValue c out s l) ∧
        ∀ s ∈ slots, Covers s c.addressBus →
          I (t.fresh Variable.dataIn.name).name = .bits 8 (out s))

theorem Line.eq_answer {l : Line} (hl : l ∉ Line.inputs) : l = .answer := by
  cases l with
  | answer => rfl
  | select | address | write | data => exact absurd (by decide) hl

theorem Line.forall_iff {P : Line → Prop} : (∀ l, P l) ↔ (∀ l ∈ Line.inputs, P l) ∧ P .answer := by
  refine ⟨fun h => ⟨fun l _ => h l, h .answer⟩, fun ⟨h, ha⟩ l => ?_⟩
  by_cases hl : l ∈ Line.inputs
  · exact h l hl
  · exact Line.eq_answer hl ▸ ha

theorem answer_notMem_writes_frontHalf (s : Slot) :
    Line.answer.name s.stem ∉ (frontHalf slots).writes := by
  intro hmem
  obtain ⟨s', -, l, hl, hname⟩ := mem_writes_frontHalf.1 hmem
  exact absurd ((Line.name_injective hname).2 ▸ hl) (by decide)

theorem Configured.nodup_answers (h : Configured slots) :
    (slots.map fun s => Line.answer.name s.stem).Nodup := by
  have hmap : (slots.map fun s => Line.answer.name s.stem) =
      (slots.map Slot.stem).map fun stem => Line.answer.name stem := by
    rw [List.map_map]
    rfl
  rw [hmap]
  exact h.stems.map fun _ _ hname => (Line.name_injective hname).1

theorem Configured.dataIn_ne (h : Configured slots) {s : Slot} (hs : s ∈ slots) (l : Line) :
    l.name s.stem ≠ Variable.dataIn.name := h.foreign s hs l .dataIn

/-- Between the halves every line has one version more. -/
theorem next_line (h : Configured slots) {t' : Timeline}
    (hnext : ∀ x, t'.next x = (t.advance (frontHalf slots).writes).next x +
      (slots.map fun s => Line.answer.name s.stem).count x) {s : Slot} (hs : s ∈ slots)
    (l : Line) : t'.next (l.name s.stem) = t.next (l.name s.stem) + 1 := by
  rw [hnext, Timeline.next_advance]
  by_cases hl : l ∈ Line.inputs
  · have hnot : l.name s.stem ∉ slots.map fun s => Line.answer.name s.stem := by
      intro hmem
      obtain ⟨s', -, hname⟩ := List.mem_map.1 hmem
      exact absurd ((Line.name_injective hname).2 ▸ hl) (by decide)
    rw [if_pos (mem_writes_frontHalf.2 ⟨s, hs, l, hl, rfl⟩), List.count_eq_zero_of_not_mem hnot]
  · obtain rfl := Line.eq_answer hl
    rw [if_neg (answer_notMem_writes_frontHalf s),
      List.count_eq_one_of_mem h.nodup_answers (List.mem_map_of_mem hs)]

/-- The data of the processor is not written before the back half. -/
theorem fresh_dataIn (h : Configured slots) {t' : Timeline}
    (hnext : ∀ x, t'.next x = (t.advance (frontHalf slots).writes).next x +
      (slots.map fun s => Line.answer.name s.stem).count x) :
    t'.fresh Variable.dataIn.name = t.fresh Variable.dataIn.name := by
  have hwrites : Variable.dataIn.name ∉ (frontHalf slots).writes := by
    intro hmem
    obtain ⟨s, hs, l, -, hname⟩ := mem_writes_frontHalf.1 hmem
    exact h.dataIn_ne hs l hname.symm
  have hanswers : Variable.dataIn.name ∉ slots.map fun s => Line.answer.name s.stem := by
    intro hmem
    obtain ⟨s, hs, hname⟩ := List.mem_map.1 hmem
    exact h.dataIn_ne hs .answer hname
  rw [Timeline.fresh, hnext, List.count_eq_zero_of_not_mem hanswers, Nat.add_zero,
    Timeline.next_advance, if_neg hwrites, Timeline.fresh]

theorem forall_line_iff : (∀ s ∈ slots, ∀ l : Line,
      I (t.fresh (l.name s.stem)).name = lineValue c out s l) ↔
    (∀ s ∈ slots, ∀ l ∈ Line.inputs, I (t.fresh (l.name s.stem)).name = lineValue c out s l) ∧
      ∀ s ∈ slots, I (t.fresh (Line.answer.name s.stem)).name = .bits 8 (out s) := by
  rw [← forall₂_and]
  exact forall₂_congr fun s _ => Line.forall_iff

theorem exists_routes (h : Configured slots) (ht : ∀ v ∈ busSources, 0 < t.next v.name)
    (out : Slot → BitVec 8) : ∃ front t₁ rest t₂, t.apply (frontHalf slots) = .ok (front, t₁) ∧
      t₁.applyAll (answering slots out) = (t₂, .ok rest) ∧
      (∀ s ∈ slots, ∀ l ∈ Line.inputs, t₁.latest (l.name s.stem) = t.fresh (l.name s.stem)) ∧
      t₂.latest Variable.dataIn.name = t.fresh Variable.dataIn.name ∧
      Routes slots out t front rest := by
  obtain ⟨front, happly, hsig, hfront⟩ := exists_apply_frontHalf h ht out
  obtain ⟨pins, t', hyields, hnext, hsigs, hpins⟩ :=
    exists_yields_pins out (fun s hs => h.names s hs .answer) h.stems
      (t.advance (frontHalf slots).writes)
  have hlatest : ∀ s ∈ slots, ∀ l : Line, t'.latest (l.name s.stem) = t.fresh (l.name s.stem) := by
    intro s hs l
    rw [Timeline.latest, next_line h hnext hs, Nat.add_sub_cancel, Timeline.fresh]
  have hanswer : ∀ s : Slot, (t.advance (frontHalf slots).writes).fresh (Line.answer.name s.stem) =
      t.fresh (Line.answer.name s.stem) := fun s =>
    Timeline.fresh_advance_of_notMem (answer_notMem_writes_frontHalf s)
  have hdataIn := fresh_dataIn h hnext
  have hpos : ∀ s ∈ slots, ∀ l ∈ [Line.select, .answer], 0 < t'.next (l.name s.stem) := by
    intro s hs l _
    rw [next_line h hnext hs]
    exact Nat.succ_pos _
  obtain ⟨back, hback, hsigBack, hmodels⟩ := exists_apply_backHalf h hpos out
  have hrest := hyields.append (.cons hback .nil)
  refine ⟨front, _, _, _, happly, hrest.applyAll_eq, fun s hs l hl => Timeline.latest_advance
    (mem_writes_frontHalf.2 ⟨s, hs, l, hl, rfl⟩), ?_, hsig, ?_, hfront, fun I c hbus => ?_⟩
  · rw [Timeline.latest_advance (List.mem_singleton_self _), hdataIn]
  · simp only [List.flatten_append, List.flatten_singleton, Formula.signature_append, hsigs,
      hsigBack, hanswer, hdataIn]
  · simp only [List.flatten_append, List.flatten_singleton, Interpretation.satisfies_append,
      hfront I c hbus, hpins, hanswer]
    rw [← and_assoc, ← forall_line_iff]
    -- the back half reads the lines that were just given their values
    refine and_congr_right fun hall => ?_
    rw [hmodels I c fun s hs l _ => (congrArg (fun x : Symbol => I x.name) (hlatest s hs l)).trans
      (hall s hs l), hdataIn]

/-! ## Models -/

/-- The names of what a bus declares. -/
def signals (slots : List Slot) : List String :=
  (slots.flatMap fun s => Line.inputs.map (Line.name s.stem)) ++
    (slots.map (fun s => Line.answer.name s.stem) ++ [Variable.dataIn.name])

theorem Configured.nodup_signals (h : Configured slots) : (signals slots).Nodup := by
  have hstems : slots.Pairwise fun s s' => s.stem ≠ s'.stem := List.pairwise_map.1 h.stems
  refine List.nodup_append.2 ⟨List.nodup_flatMap.2 ⟨fun s _ => ?_, hstems.imp ?_⟩,
    List.nodup_append.2 ⟨h.nodup_answers, List.nodup_singleton _, ?_⟩, ?_⟩
  · exact List.Nodup.map (fun _ _ hname => (Line.name_injective hname).2) (by decide)
  · intro s s' hne x hx hx'
    obtain ⟨l, -, rfl⟩ := List.mem_map.1 hx
    obtain ⟨l', -, hname⟩ := List.mem_map.1 hx'
    exact hne (Line.name_injective hname).1.symm
  · intro x hx y hy hxy
    obtain ⟨s, hs, rfl⟩ := List.mem_map.1 hx
    exact h.dataIn_ne hs .answer (hxy.trans (List.mem_singleton.1 hy))
  · intro x hx y hy hxy
    rcases List.mem_append.1 hy with hy | hy
    · obtain ⟨s, -, rfl⟩ := List.mem_map.1 hy
      exact answer_notMem_writes_frontHalf s (hxy ▸ hx)
    · obtain ⟨s, hs, l, -, rfl⟩ := mem_writes_frontHalf.1 hx
      exact h.dataIn_ne hs l (hxy.trans (List.mem_singleton.1 hy))

/-- The values of the lines that the front half drives. -/
def driven (slots : List Slot) (out : Slot → BitVec 8) (t : Timeline) (c : Cpu) :
    List (String × Meaning) :=
  slots.flatMap fun s => Line.inputs.map fun l =>
    ((t.fresh (l.name s.stem)).name, lineValue c out s l)

/-- The values of what a bus declares, with a byte for the processor. -/
def routed (slots : List Slot) (out : Slot → BitVec 8) (t : Timeline) (c : Cpu) (b : BitVec 8) :
    List (String × Meaning) :=
  driven slots out t c ++
    (slots.map (fun s => ((t.fresh (Line.answer.name s.stem)).name, lineValue c out s .answer)) ++
      [((t.fresh Variable.dataIn.name).name, .bits 8 b)])

theorem Configured.nodup_routed (h : Configured slots) (out : Slot → BitVec 8) (t : Timeline)
    (c : Cpu) (b : BitVec 8) : ((routed slots out t c b).map Prod.fst).Nodup := by
  have hkeys : (routed slots out t c b).map Prod.fst =
      (signals slots).map fun x => (t.fresh x).name := by
    simp [routed, driven, signals, List.map_flatMap, Function.comp_def]
  rw [hkeys]
  exact h.nodup_signals.map fun _ _ => Timeline.fresh_injective

theorem forall_mem_driven : (∀ v ∈ driven slots out t c, I v.1 = v.2) ↔
    ∀ s ∈ slots, ∀ l ∈ Line.inputs, I (t.fresh (l.name s.stem)).name = lineValue c out s l := by
  simp only [driven, List.forall_mem_flatMap, List.forall_mem_map]

theorem forall_mem_routed {b : BitVec 8} : (∀ v ∈ routed slots out t c b, I v.1 = v.2) ↔
    (∀ s ∈ slots, ∀ l : Line, I (t.fresh (l.name s.stem)).name = lineValue c out s l) ∧
      I (t.fresh Variable.dataIn.name).name = .bits 8 b := by
  rw [routed, List.forall_mem_append, List.forall_mem_append, forall_mem_driven,
    List.forall_mem_map, List.forall_mem_singleton, ← and_assoc, forall_line_iff]
  rfl

/-- The signals of the processor were there before the bus. -/
theorem showsBus_of_same {J : Interpretation} (ht : ∀ v ∈ busSources, 0 < t.next v.name)
    (hbus : ShowsBus (fun x => I (t.latest x).name) c)
    (hsame : ∀ y, (∀ x, y ≠ (t.fresh x).name) → J y = I y) :
    ShowsBus (fun x => J (t.latest x).name) c := by
  have hlatest : ∀ v ∈ busSources, J (t.latest v.name).name = I (t.latest v.name).name := by
    intro v hv
    refine hsame _ fun x hname => ?_
    obtain ⟨rfl, hversion⟩ := Timeline.versionedName_injective hname
    have hpos := ht v hv
    omega
  exact ⟨(hlatest .addressBus (by decide)).trans hbus.addressBus,
    (hlatest .writeEnable (by decide)).trans hbus.writeEnable,
    (hlatest .dataOut (by decide)).trans hbus.dataOut⟩

/-- A model of a formula that differs from an interpretation in declared symbols only. -/
structure Expands (f : Formula) (I J : Interpretation) : Prop where
  fits : J.Fits f.signature
  satisfies : J.Satisfies f
  same : ∀ y, (∀ k, (y, k) ∉ f.signature) → J y = I y

theorem notMem_signature {f : Formula} {vs : List (String × Meaning)}
    (signature : f.signature = vs.map fun v => (v.1, v.2.kind))
    (fresh : ∀ v ∈ vs, ∃ x, v.1 = (t.fresh x).name) {y : String} (hy : ∀ x, y ≠ (t.fresh x).name)
    (k : Kind) : (y, k) ∉ f.signature := by
  rw [signature]
  intro hmem
  obtain ⟨v, hv, heq⟩ := List.mem_map.1 hmem
  cases heq
  obtain ⟨x, hx⟩ := fresh v hv
  exact hy x hx

/-- New versions can be given the values that a formula asks for where the processor shows its
signals. -/
theorem exists_expands {f : Formula} {vs : List (String × Meaning)}
    (signature : f.signature = vs.map fun v => (v.1, v.2.kind)) (unique : (vs.map Prod.fst).Nodup)
    (fresh : ∀ v ∈ vs, ∃ x, v.1 = (t.fresh x).name) (ht : ∀ v ∈ busSources, 0 < t.next v.name)
    (hbus : ShowsBus (fun x => I (t.latest x).name) c)
    (models : ∀ J : Interpretation, ShowsBus (fun x => J (t.latest x).name) c →
      (∀ v ∈ vs, J v.1 = v.2) → J.Satisfies f) :
    ∃ J, Expands f I J ∧ ∀ v ∈ vs, J v.1 = v.2 := by
  obtain ⟨J, hJ, fits, hsame⟩ := I.exists_fits_values signature unique
  have hbusJ := showsBus_of_same ht hbus fun y hy => hsame y (notMem_signature signature fresh hy)
  exact ⟨J, ⟨fits, models J hbusJ hJ, hsame⟩, hJ⟩

theorem fresh_of_mem_routed {b : BitVec 8} :
    ∀ v ∈ routed slots out t c b, ∃ x, v.1 = (t.fresh x).name := by
  simp only [routed, driven, List.forall_mem_append, List.forall_mem_flatMap, List.forall_mem_map,
    List.forall_mem_singleton]
  exact ⟨fun s _ l _ => ⟨_, rfl⟩, fun s _ => ⟨_, rfl⟩, _, rfl⟩

namespace Routes

variable {front rest : Formula}

theorem signature_front (h : Routes slots out t front rest) (c : Cpu) :
    front.signature = (driven slots out t c).map fun v => (v.1, v.2.kind) := by
  rw [h.front_signature]
  simp [driven, List.map_flatMap, Function.comp_def, kind_lineValue]

theorem signature (h : Routes slots out t front rest) (c : Cpu) (b : BitVec 8) :
    (front ++ rest).signature = (routed slots out t c b).map fun v => (v.1, v.2.kind) := by
  rw [Formula.signature_append, h.signature_front c, h.rest_signature]
  simp [routed, kind_lineValue]

/-- The front half can always be met. -/
theorem exists_expands_front (h : Routes slots out t front rest) (hslots : Configured slots)
    (ht : ∀ v ∈ busSources, 0 < t.next v.name)
    (hbus : ShowsBus (fun x => I (t.latest x).name) c) : ∃ J, Expands front I J := by
  have hnodup := hslots.nodup_routed out t c 0
  rw [routed, List.map_append] at hnodup
  obtain ⟨J, hJ, -⟩ := exists_expands (h.signature_front c) (List.nodup_append.1 hnodup).1
    (fun v hv => fresh_of_mem_routed (b := 0) v (List.mem_append_left _ hv)) ht hbus
    fun J hJ hall => (h.front_models J c hJ).2 (forall_mem_driven.1 hall)
  exact ⟨J, hJ⟩

/-- Both halves can be met with a byte that all slots of the addressed page give. -/
theorem exists_expands_of_answer (h : Routes slots out t front rest) (hslots : Configured slots)
    (ht : ∀ v ∈ busSources, 0 < t.next v.name)
    (hbus : ShowsBus (fun x => I (t.latest x).name) c) {b : BitVec 8}
    (hb : ∀ s ∈ slots, Covers s c.addressBus → out s = b) :
    ∃ J, Expands (front ++ rest) I J ∧ J (t.fresh Variable.dataIn.name).name = .bits 8 b := by
  obtain ⟨J, hJ, hvalues⟩ := exists_expands (h.signature c b) (hslots.nodup_routed out t c b)
    fresh_of_mem_routed ht hbus fun J hJ hall => by
      obtain ⟨hlines, hdata⟩ := forall_mem_routed.1 hall
      exact (h.models J c hJ).2 ⟨hlines, fun s hs hcovers => by rw [hdata, hb s hs hcovers]⟩
  exact ⟨J, hJ, (forall_mem_routed.1 hvalues).2⟩

/-- All slots of the addressed page give the data that the processor gets. -/
theorem dataIn_eq (h : Routes slots out t front rest) (ht : ∀ v ∈ busSources, 0 < t.next v.name)
    (hbus : ShowsBus (fun x => I (t.latest x).name) c) {J : Interpretation}
    (hJ : Expands (front ++ rest) I J) {s : Slot} (hs : s ∈ slots)
    (hcovers : Covers s c.addressBus) :
    J (t.fresh Variable.dataIn.name).name = .bits 8 (out s) := by
  have hbusJ := showsBus_of_same ht hbus fun y hy =>
    hJ.same y (notMem_signature (h.signature c 0) fresh_of_mem_routed hy)
  exact ((h.models J c hbusJ).1 hJ.satisfies).2 s hs hcovers

/-- Both halves can be met exactly if no two slots of the addressed page differ. -/
theorem exists_expands_iff (h : Routes slots out t front rest) (hslots : Configured slots)
    (ht : ∀ v ∈ busSources, 0 < t.next v.name)
    (hbus : ShowsBus (fun x => I (t.latest x).name) c) :
    (∃ J, Expands (front ++ rest) I J) ↔ ∀ s ∈ slots, ∀ s' ∈ slots,
      Covers s c.addressBus → Covers s' c.addressBus → out s = out s' := by
  constructor
  · rintro ⟨J, hJ⟩ s hs s' hs' hcovers hcovers'
    have heq := (h.dataIn_eq ht hbus hJ hs hcovers).symm.trans (h.dataIn_eq ht hbus hJ hs' hcovers')
    simpa using heq
  · intro hagree
    by_cases hserved : ∃ s ∈ slots, Covers s c.addressBus
    · obtain ⟨s, hs, hcovers⟩ := hserved
      obtain ⟨J, hJ, -⟩ := h.exists_expands_of_answer hslots ht hbus fun s' hs' hcovers' =>
        hagree s' hs' s hs hcovers' hcovers
      exact ⟨J, hJ⟩
    · -- nothing is on the page, and any byte will do
      obtain ⟨J, hJ, -⟩ := h.exists_expands_of_answer (b := 0) hslots ht hbus
        fun s hs hcovers => (hserved ⟨s, hs, hcovers⟩).elim
      exact ⟨J, hJ⟩

end Routes

end Blocks

/-! ## Overlaps -/

theorem nodup_eraseDups {α : Type} [BEq α] [LawfulBEq α] (l : List α) : l.eraseDups.Nodup := by
  induction hn : l.length using Nat.strong_induction_on generalizing l with
  | h n ih =>
    cases l with
    | nil => exact List.nodup_nil
    | cons a rest =>
      have hlength := List.length_filter_le (fun b => !b == a) rest
      rw [List.eraseDups_cons, List.nodup_cons, List.mem_eraseDups]
      exact ⟨by simp, ih _ (by rw [← hn, List.length_cons]; omega) _ rfl⟩

/-- The overlaps are the pages of more than one slot, in increasing order. -/
theorem pairwise_overlaps (slots : List Slot) : (overlaps slots).Pairwise (· < ·) := by
  have hsorted : (overlaps slots).Pairwise fun p q => decide (p ≤ q) = true :=
    List.pairwise_mergeSort (by simp; omega) (by simp; omega) _
  have hnodup : (overlaps slots).Nodup :=
    (List.mergeSort_perm _ _).nodup_iff.2 ((nodup_eraseDups _).filter _)
  refine List.Pairwise.imp₂ (fun p q hle hne => ?_) hsorted hnodup
  exact lt_of_le_of_ne (of_decide_eq_true hle) hne

theorem mem_overlaps_iff {slots : List Slot} {p : Int} :
    p ∈ overlaps slots ↔ 1 < (slots.map Slot.page).count p := by
  simp only [overlaps, List.mem_mergeSort, List.mem_filter, List.mem_eraseDups, decide_eq_true_eq]
  exact and_iff_right_of_imp fun h => List.count_pos_iff.1 (by omega)

/-- Without overlaps no page has two slots. -/
theorem nodup_pages_of_overlaps {slots : List Slot} (h : overlaps slots = []) :
    (slots.map Slot.page).Nodup := by
  refine List.nodup_iff_count_le_one.2 fun p => Nat.le_of_not_lt fun hp => ?_
  have hmem := mem_overlaps_iff.2 hp
  rw [h] at hmem
  exact List.not_mem_nil hmem

/-! ## Routing -/

/-- What a slot sees of the processor. -/
structure Sees (e : Valuation) (c : Cpu) (s : Slot) : Prop where
  select : e (Slot.chipSelect s.stem) = .bits 1 (if Covers s c.addressBus then 1 else 0)
  address : e (Slot.address s.stem) = .bits 16 c.addressBus
  write : e (Slot.writeEnable s.stem) = .bits 1 c.writeEnable
  data : e (Slot.dataIn s.stem) = .bits 8 c.dataOut

/-- The bus routes an access to the slots of the addressed page, whatever the slots are: the front
half selects them and shows all slots the signals of the processor, and the processor gets the data
of a selected slot. The commands have a model unless selected slots give different data. Without a
selected slot the processor may get any byte. More than one slot can be selected only if there are
overlaps. -/
theorem routes_access {slots : List Slot} (h : Configured slots) {t : Timeline}
    (ht : ∀ v ∈ busSources, 0 < t.next v.name) (out : Slot → BitVec 8) :
    (∃ front t₁ rest t₂, t.apply (frontHalf slots) = .ok (front, t₁) ∧
      t₁.applyAll (answering slots out) = (t₂, .ok rest) ∧
      ∀ (c : Cpu) (I : Interpretation), ShowsBus (fun x => I (t.latest x).name) c →
        (I.Fits front.signature → I.Satisfies front →
          ∀ s ∈ slots, Sees (fun x => I (t₁.latest x).name) c s) ∧
        (∃ J, Expands front I J) ∧
        ((∃ J, Expands (front ++ rest) I J) ↔ ∀ s ∈ slots, ∀ s' ∈ slots,
          Covers s c.addressBus → Covers s' c.addressBus → out s = out s') ∧
        (I.Fits (front ++ rest).signature → I.Satisfies (front ++ rest) →
          ∀ s ∈ slots, Covers s c.addressBus →
            I (t₂.latest Variable.dataIn.name).name = .bits 8 (out s)) ∧
        ((∀ s ∈ slots, ¬ Covers s c.addressBus) → ∀ b, ∃ J, Expands (front ++ rest) I J ∧
          J (t₂.latest Variable.dataIn.name).name = .bits 8 b)) ∧
    (overlaps slots).Pairwise (· < ·) ∧
    (∀ p, p ∈ overlaps slots ↔ 1 < (slots.map Slot.page).count p) ∧
    (overlaps slots = [] → ∀ address, ∀ s ∈ slots, ∀ s' ∈ slots,
      Covers s address → Covers s' address → s = s') := by
  refine ⟨?_, pairwise_overlaps slots, fun _ => mem_overlaps_iff, fun hnone address => ?_⟩
  · obtain ⟨front, t₁, rest, t₂, hfront, hrest, hlines, hdataIn, hroutes⟩ := exists_routes h ht out
    refine ⟨front, t₁, rest, t₂, hfront, hrest, fun c I hbus =>
      ⟨fun _ hsat s hs => ?_, hroutes.exists_expands_front h ht hbus,
        hroutes.exists_expands_iff h ht hbus, fun fits hsat s hs hcovers => ?_,
        fun hnone b => ?_⟩⟩
    · have hvalues : ∀ l ∈ Line.inputs,
          I (t₁.latest (l.name s.stem)).name = lineValue c out s l := by
        intro l hl
        rw [hlines s hs l hl]
        exact (hroutes.front_models I c hbus).1 hsat s hs l hl
      exact ⟨hvalues .select (by decide), hvalues .address (by decide),
        hvalues .write (by decide), hvalues .data (by decide)⟩
    · rw [hdataIn]
      exact hroutes.dataIn_eq ht hbus ⟨fits, hsat, fun _ _ => rfl⟩ hs hcovers
    · rw [hdataIn]
      exact hroutes.exists_expands_of_answer h ht hbus fun s hs hcovers =>
        (hnone s hs hcovers).elim
  · intro s hs s' hs' hcovers hcovers'
    exact List.inj_on_of_nodup_map (nodup_pages_of_overlaps hnone) hs hs'
      (hcovers.trans hcovers'.symm)

/-- Two slots on page 3 and one on page 1. -/
def sharedSlots : List Slot := [⟨3, "Rom_"⟩, ⟨1, "Ram_"⟩, ⟨3, "Extra_"⟩]

theorem configured_sharedSlots : Configured sharedSlots where
  pages := by simp [sharedSlots]
  stems := by decide
  names := by
    have hstems : ∀ s ∈ sharedSlots, IsName s.stem := by decide +kernel
    exact fun s hs l => (hstems s hs).append (by cases l <;> decide)
  foreign := by
    intro s hs l v
    simp only [sharedSlots, List.mem_cons, List.not_mem_nil, or_false] at hs
    rcases hs with rfl | rfl | rfl <;> cases l <;> cases v <;> decide

/-- Different data of the slots on page 3 cannot both reach the processor, and the page is reported;
page 1 has its own data. -/
theorem routes_access_sharedSlots : ∃ front t₁ rest t₂,
    (({} : Timeline).advance (busSources.map Variable.name)).apply (frontHalf sharedSlots) =
      .ok (front, t₁) ∧
    t₁.applyAll (answering sharedSlots fun s => s.stem.length) = (t₂, .ok rest) ∧
    3 ∈ overlaps sharedSlots ∧
    ∀ (c : Cpu) (I : Interpretation), ShowsBus (fun x =>
        I ((({} : Timeline).advance (busSources.map Variable.name)).latest x).name) c →
      (c.addressBus = 0x3abc → ¬ ∃ J, Expands (front ++ rest) I J) ∧
      (c.addressBus = 0x1abc → I.Fits (front ++ rest).signature → I.Satisfies (front ++ rest) →
        I (t₂.latest Variable.dataIn.name).name = .bits 8 4) := by
  have hsources : ∀ v ∈ busSources,
      0 < (({} : Timeline).advance (busSources.map Variable.name)).next v.name :=
    fun v hv => Timeline.pos_advance (.inl (List.mem_map_of_mem hv))
  obtain ⟨⟨front, t₁, rest, t₂, hfront, hrest, hmodels⟩, -, hoverlaps, -⟩ :=
    routes_access configured_sharedSlots hsources fun s => s.stem.length
  refine ⟨front, t₁, rest, t₂, hfront, hrest, (hoverlaps 3).2 (by decide), fun c I hbus => ?_⟩
  obtain ⟨-, -, hagree, hforced, -⟩ := hmodels c I hbus
  refine ⟨fun haddress hmodel => ?_, fun haddress fits hsat => ?_⟩
  · have hsame := hagree.1 hmodel ⟨3, "Rom_"⟩ (by simp [sharedSlots]) ⟨3, "Extra_"⟩
      (by simp [sharedSlots]) (by rw [haddress]; decide) (by rw [haddress]; decide)
    exact absurd hsame (by decide)
  · exact hforced fits hsat ⟨1, "Ram_"⟩ (by simp [sharedSlots]) (by rw [haddress]; decide)

end CycleCheck.Cycle
