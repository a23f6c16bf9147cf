import CycleCheck.Proofs.Cycle.Completeness
import CycleCheck.Proofs.Scenario.Image

/-!
The goals of scenarios. On a machine that has run for some cycles the claims of a valid scenario are
equations between known versions and constants, and they hold together in the values of a trace if
and only if its last state is as expected.
-/

namespace CycleCheck

theorem Interpretation.denote_bitAnd {I : Interpretation} {a b : Term} {w : Nat} {y z : BitVec w}
    (ha : I.denote a = .bits w y) (hb : I.denote b = .bits w z) :
    I.denote (.bitAnd a b) = .bits w (y &&& z) := by
  change (I.denote a).words (fun _ u v => u &&& v) (I.denote b) = _
  rw [ha, hb, Meaning.words, BitVec.setWidth_eq]

/-! ## Status -/

namespace Processor.StatusFlags

/-- Only flags that matter are set. -/
def Within (f : StatusFlags) : Prop :=
  ∀ i, f.value.toBitVec.getLsbD i = true → f.mask.toBitVec.getLsbD i = true

theorem within_letter {s : String} {f f' : StatusFlags} {i : Nat} {l c : Char} (hf : f.Within)
    (h : f.letter s i l c = .ok f') : f'.Within := by
  unfold letter at h
  split_ifs at h
  · cases h
    exact hf
  · cases h
    exact hf
  · cases h
    intro j hj
    simp [hf j hj]
  · cases h
    intro j hj
    simp only [UInt8.toBitVec_or, BitVec.getLsbD_or, Bool.or_eq_true] at hj ⊢
    exact hj.imp_left (hf j)

theorem within_letters {s : String} {i : Nat} {ls cs : List Char} {f f' : StatusFlags}
    (hf : f.Within) (h : letters s i ls cs f = .ok f') : f'.Within := by
  induction ls generalizing i cs f with
  | nil =>
    cases h
    exact hf
  | cons l ls ih =>
    cases cs with
    | nil =>
      cases h
      exact hf
    | cons c cs =>
      obtain ⟨f₁, hfirst, hrest⟩ := Propagation.exists_ok_of_bind h
      exact ih (within_letter hf hfirst) hrest

theorem within_of_parse {s : String} {f : StatusFlags} (h : parse s = .ok f) : f.Within := by
  unfold parse at h
  split_ifs at h
  refine within_letters (fun i hi => ?_) h
  simp at hi

/-- Under the mask a status is the value if and only if the flags that matter are equal. -/
theorem Within.and_mask_eq_iff {f : StatusFlags} (hf : f.Within) (p : BitVec 8) :
    p &&& f.mask.toBitVec = f.value.toBitVec ↔ ∀ i : Fin 8, f.mask.toBitVec.getLsbD i = true →
      p.getLsbD i = f.value.toBitVec.getLsbD i := by
  constructor
  · intro h i hi
    rw [← h, BitVec.getLsbD_and, hi, Bool.and_true]
  · intro h
    apply BitVec.eq_of_getLsbD_eq
    intro i hi
    have hbit := h ⟨i, hi⟩
    have hwithin := hf i
    rw [BitVec.getLsbD_and]
    cases hm : f.mask.toBitVec.getLsbD i with
    | true => rw [Bool.and_true, hbit hm]
    | false =>
      rw [hm] at hwithin
      simpa using hwithin

end Processor.StatusFlags

/-! ## Expectations -/

namespace Scenario

open Processor Memory CycleCheck.Cycle

/-- A state is as expected: the registers are equal, the flags that matter are equal, and so are the
cells of RAM that the addresses reach. -/
structure Expectation.Met (e : Expectation) (s : State) : Prop where
  a : ∀ v ∈ e.a, s.cpu.a = v.toBitVec
  x : ∀ v ∈ e.x, s.cpu.x = v.toBitVec
  y : ∀ v ∈ e.y, s.cpu.y = v.toBitVec
  sp : ∀ v ∈ e.sp, s.cpu.sp = v.toBitVec
  pc : ∀ v ∈ e.pc, s.cpu.pc = v.toBitVec
  p : ∀ f ∈ (StatusFlags.parse e.p).toOption, ∀ i : Fin 8, f.mask.toBitVec.getLsbD i = true →
    s.cpu.p.getLsbD i = f.value.toBitVec.getLsbD i
  ram : ∀ c ∈ ByteMap.entriesOf e.ram, s.ram (c.1.toBitVec.setWidth 11) = c.2.toBitVec

theorem Expectation.met_iff {e : Expectation} {s : State} : e.Met s ↔
    (∀ v ∈ e.a, s.cpu.a = v.toBitVec) ∧ (∀ v ∈ e.x, s.cpu.x = v.toBitVec) ∧
    (∀ v ∈ e.y, s.cpu.y = v.toBitVec) ∧ (∀ v ∈ e.sp, s.cpu.sp = v.toBitVec) ∧
    (∀ v ∈ e.pc, s.cpu.pc = v.toBitVec) ∧
    (∀ f ∈ (StatusFlags.parse e.p).toOption, ∀ i : Fin 8, f.mask.toBitVec.getLsbD i = true →
      s.cpu.p.getLsbD i = f.value.toBitVec.getLsbD i) ∧
    ∀ c ∈ ByteMap.entriesOf e.ram, s.ram (c.1.toBitVec.setWidth 11) = c.2.toBitVec :=
  ⟨fun ⟨ha, hx, hy, hsp, hpc, hp, hram⟩ => ⟨ha, hx, hy, hsp, hpc, hp, hram⟩,
    fun ⟨ha, hx, hy, hsp, hpc, hp, hram⟩ => ⟨ha, hx, hy, hsp, hpc, hp, hram⟩⟩

-- What is expected is looked at, not all words there are.
local instance {α : Type} {P : α → Prop} [DecidablePred P] (o : Option α) :
    Decidable (∀ v ∈ o, P v) := o.decidableForallMem

local instance {α : Type} {P : α → Prop} [DecidablePred P] (l : List α) :
    Decidable (∀ v ∈ l, P v) := List.decidableBAll P l

instance (e : Expectation) (s : State) : Decidable (e.Met s) :=
  decidable_of_iff _ Expectation.met_iff.symm

/-- States with the same registers and RAM meet the same expectations. -/
theorem Expectation.met_congr {e : Expectation} {s s' : State} (h : Alike s s') :
    e.Met s' ↔ e.Met s := by
  rw [met_iff, met_iff, h.a, h.x, h.y, h.sp, h.p, h.pc, h.ram]

/-! ## Claims -/

/-- Equations over what a machine has declared that hold together in the values of a trace if and
only if its last state has a property. -/
structure Claims (rom : Cartridge.Rom) (n : Nat) (sys : Machine) (ts : List Term)
    (P : State → Prop) : Prop where
  clause : ∀ t ∈ ts, Clause (fun y j => (y, j) ∈ sys.formula.signature) t
  evaluable : ∀ t ∈ ts, t.Evaluable (fun y j => (y, j) ∈ sys.formula.signature) .truth
  holds : ∀ {trace : Nat → State} {I : Interpretation}, ShowsTrace rom n trace I →
    ((∀ t ∈ ts, I.Holds t) ↔ P (trace n))

namespace Claims

variable {rom : Cartridge.Rom} {n : Nat} {sys : Machine} {ts us : List Term} {P Q : State → Prop}

theorem nil (h : ∀ s, P s) : Claims rom n sys [] P :=
  ⟨by simp, by simp, fun _ => iff_of_true (by simp) (h _)⟩

theorem append (h : Claims rom n sys ts P) (h' : Claims rom n sys us Q) :
    Claims rom n sys (ts ++ us) fun s => P s ∧ Q s := by
  refine ⟨List.forall_mem_append.2 ⟨h.clause, h'.clause⟩,
    List.forall_mem_append.2 ⟨h.evaluable, h'.evaluable⟩, fun hshows => ?_⟩
  rw [List.forall_mem_append, h.holds hshows, h'.holds hshows]

theorem congr (h : Claims rom n sys ts P) (hP : ∀ s, P s ↔ Q s) : Claims rom n sys ts Q :=
  ⟨h.clause, h.evaluable, fun hshows => (h.holds hshows).trans (hP _)⟩

/-- One equation between words. -/
theorem eq {a b : Term} {w : Nat} {x y : State → BitVec w}
    (ha : a.Evaluable (fun y j => (y, j) ∈ sys.formula.signature) (.bits w))
    (hb : b.Evaluable (fun y j => (y, j) ∈ sys.formula.signature) (.bits w))
    (hx : ∀ {trace : Nat → State} {I : Interpretation}, ShowsTrace rom n trace I →
      I.denote a = .bits w (x (trace n)))
    (hy : ∀ {trace : Nat → State} {I : Interpretation}, ShowsTrace rom n trace I →
      I.denote b = .bits w (y (trace n))) :
    Claims rom n sys [.eq a b] fun s => x s = y s := by
  refine ⟨?_, ?_, fun hshows => ?_⟩
  · rw [List.forall_mem_singleton]
    exact .eq ha hb
  · rw [List.forall_mem_singleton]
    exact .eq ha hb
  · rw [List.forall_mem_singleton]
    exact Interpretation.holds_eq_bits (hx hshows) (hy hshows)

theorem map {α : Type} {l : List α} {t : α → Term} {R : α → State → Prop}
    (h : ∀ a ∈ l, Claims rom n sys [t a] (R a)) :
    Claims rom n sys (l.map t) fun s => ∀ a ∈ l, R a s := by
  refine ⟨List.forall_mem_map.2 fun a ha => (h a ha).clause _ (List.mem_singleton_self _),
    List.forall_mem_map.2 fun a ha => (h a ha).evaluable _ (List.mem_singleton_self _),
    fun hshows => ?_⟩
  rw [List.forall_mem_map]
  refine forall₂_congr fun a ha => ?_
  rw [← (h a ha).holds hshows, List.forall_mem_singleton]

end Claims

/-! ## The claims of a scenario -/

/-- The claim about a register. -/
def registerClaim (sys : Machine) (v : Variable) (value : Option Nat) :
    Except MachineError (List Term) :=
  match value with
  | none => .ok []
  | some n => do pure [.eq (.symbol (← sys.symbol v.name)) (.word v.width n)]

/-- The claim about the status. -/
def statusClaim (sys : Machine) (letters : String) : Except MachineError (List Term) :=
  if letters.isEmpty then pure []
  else match StatusFlags.parse letters with
    | .error _ => pure []
    | .ok f => do
        let status := Term.symbol (← sys.symbol Variable.p.name)
        pure [Term.eq (.bitAnd status (.word 8 f.mask.toNat)) (.word 8 f.value.toNat)]

/-- The claim about a cell of RAM. -/
def cellClaim (memory : Term) (c : UInt16 × UInt8) : Term :=
  .eq (.select memory (Ram.cellIndex (mapAddress c.1).1.toNat)) (.word 8 c.2.toNat)

/-- The claims about RAM. -/
def cellClaims (sys : Machine) (entries : List (UInt16 × UInt8)) :
    Except MachineError (List Term) :=
  match entries with
  | [] => pure []
  | entries => do
      let memory := Term.symbol (← sys.symbol Ram.memory)
      pure (entries.map (cellClaim memory))

theorem claims_eq (s : Scenario) (sys : Machine) : s.claims sys = (do
    let a ← registerClaim sys .a (s.expect.a.map UInt8.toNat)
    let x ← registerClaim sys .x (s.expect.x.map UInt8.toNat)
    let y ← registerClaim sys .y (s.expect.y.map UInt8.toNat)
    let sp ← registerClaim sys .sp (s.expect.sp.map UInt8.toNat)
    let pc ← registerClaim sys .pc (s.expect.pc.map UInt16.toNat)
    let p ← statusClaim sys s.expect.p
    let cells ← cellClaims sys (ByteMap.entriesOf s.expect.ram)
    pure (a ++ x ++ y ++ sp ++ pc ++ p ++ cells)) := by
  unfold claims
  refine bind_congr fun a => bind_congr fun x => bind_congr fun y => bind_congr fun sp =>
    bind_congr fun pc => ?_
  unfold statusClaim cellClaims
  cases s.expect.p.isEmpty <;> cases StatusFlags.parse s.expect.p <;>
    cases ByteMap.entriesOf s.expect.ram <;> cases sys.symbol Variable.p.name <;>
    cases sys.symbol Ram.memory <;> rfl

section Elapsed

variable {rom : Cartridge.Rom} {options : MachineOptions} {n : Nat} {sys : Machine}

theorem symbol_eq (h : Elapsed rom options n sys) (w : Wire) :
    sys.symbol w.name = .ok (sys.timeline.latest w.name) := by
  rw [Machine.symbol, Timeline.current_eq w.isName (h.next_pos w)]
  rfl

theorem evaluable_latest (h : Elapsed rom options n sys) (w : Wire) :
    (Term.symbol (sys.timeline.latest w.name)).Evaluable
      (fun y j => (y, j) ∈ sys.formula.signature) (w.kind sys.mapper.addressBits) := by
  have hscope := Timeline.scope_latest (κ := kindOf sys.mapper.addressBits) (h.next_pos w)
  rw [kindOf_name] at hscope
  exact .symbol ((h.accounted.scope_iff _ _).1 hscope)

theorem denote_latest_cpu (h : Elapsed rom options n sys) {trace : Nat → State}
    {I : Interpretation} (hshows : ShowsTrace rom n trace I) (v : Variable) :
    I.denote (.symbol (sys.timeline.latest v.name)) =
      signal (trace n).cpu (trace n).dataIn v := by
  have hcount : (Wire.cpu v).count n true 16 true = n + 1 := by cases v <;> simp [Wire.count]
  have hlatest := h.timeline.latest I (.cpu v)
  rw [hcount] at hlatest
  exact hlatest.trans ((hshows.shown n (Nat.le_refl n)).values v)

theorem denote_latest_ram (h : Elapsed rom options n sys) {trace : Nat → State}
    {I : Interpretation} (hshows : ShowsTrace rom n trace I) :
    I.denote (.symbol (sys.timeline.latest Ram.memory)) = .array 11 8 (trace n).ram :=
  (h.timeline.latest I .ram).trans (hshows.shown n (Nat.le_refl n)).ram

/-- A register is claimed to have a value, if one is given. -/
theorem exists_registerClaim (h : Elapsed rom options n sys) (v : Variable) {w : Nat}
    {x : State → BitVec w} (hx : ∀ s, signal s.cpu s.dataIn v = .bits w (x s))
    (hwidth : v.width = w) (hbits : bitsOf v = w) (hpos : 0 < w) (hnarrow : w ≤ 64) {α : Type}
    (number : α → Nat) (word : α → BitVec w) (hnumber : ∀ u, number u = (word u).toNat)
    (value : Option α) :
    ∃ ts, registerClaim sys v (value.map number) = .ok ts ∧
      Claims rom n sys ts fun s => ∀ u ∈ value, x s = word u := by
  subst hwidth
  cases value with
  | none => exact ⟨[], rfl, .nil (by simp)⟩
  | some u =>
    refine ⟨[.eq (.symbol (sys.timeline.latest v.name)) (.word v.width (word u).toNat)], ?_, ?_⟩
    · have hsymbol : sys.symbol v.name = _ := symbol_eq h (.cpu v)
      rw [Option.map_some, hnumber, registerClaim, hsymbol]
      rfl
    · have hleft := evaluable_latest h (.cpu v)
      rw [Wire.kind, hbits] at hleft
      have hclaim : Claims rom n sys _ fun s => x s = .ofNat v.width (word u).toNat :=
        .eq hleft (.word hpos hnarrow (word u).isLt)
          (fun hshows => (denote_latest_cpu h hshows v).trans (hx _))
          (fun _ => Interpretation.denote_word ..)
      exact hclaim.congr fun s => by simp

theorem exists_byteClaim (h : Elapsed rom options n sys) (v : Variable) {x : State → BitVec 8}
    (hx : ∀ s, signal s.cpu s.dataIn v = .bits 8 (x s)) (hwidth : v.width = 8)
    (hbits : bitsOf v = 8) (value : Option UInt8) :
    ∃ ts, registerClaim sys v (value.map UInt8.toNat) = .ok ts ∧
      Claims rom n sys ts fun s => ∀ u ∈ value, x s = u.toBitVec :=
  exists_registerClaim h v hx hwidth hbits (by decide) (by decide) UInt8.toNat UInt8.toBitVec
    (fun _ => rfl) value

theorem exists_statusClaim (h : Elapsed rom options n sys) {letters : String}
    (hletters : letters ≠ "" → ∃ f, StatusFlags.parse letters = .ok f) :
    ∃ ts, statusClaim sys letters = .ok ts ∧ Claims rom n sys ts fun s =>
      ∀ f ∈ (StatusFlags.parse letters).toOption, ∀ i : Fin 8, f.mask.toBitVec.getLsbD i = true →
        s.cpu.p.getLsbD i = f.value.toBitVec.getLsbD i := by
  by_cases hempty : letters = ""
  · subst hempty
    exact ⟨[], rfl, .nil fun _ _ hf => nomatch (hf : none = some _)⟩
  · obtain ⟨f, hf⟩ := hletters hempty
    refine ⟨[.eq (.bitAnd (.symbol (sys.timeline.latest Variable.p.name)) (.word 8 f.mask.toNat))
      (.word 8 f.value.toNat)], ?_, ?_⟩
    · have hsymbol : sys.symbol Variable.p.name = _ := symbol_eq h (.cpu .p)
      rw [statusClaim, if_neg (by simpa using hempty), hf, hsymbol]
      rfl
    · have hclaim : Claims rom n sys _ fun s =>
          s.cpu.p &&& .ofNat 8 f.mask.toNat = .ofNat 8 f.value.toNat :=
        .eq (.bitAnd (evaluable_latest h (.cpu .p)) (.word (by decide) (by decide) f.mask.toNat_lt))
          (.word (by decide) (by decide) f.value.toNat_lt)
          (fun hshows => Interpretation.denote_bitAnd (denote_latest_cpu h hshows .p)
            (Interpretation.denote_word ..))
          (fun _ => Interpretation.denote_word ..)
      refine hclaim.congr fun s => ?_
      rw [hf, Except.toOption]
      simpa using (StatusFlags.within_of_parse hf).and_mask_eq_iff s.cpu.p

/-- The mirrors of RAM are undone by taking the low bits. -/
theorem toNat_mapAddress {a : UInt16} (h : areaOf a = .ram) :
    (mapAddress a).1.toNat = (a.toBitVec.setWidth 11).toNat := by
  have hmask : (0x7ff : UInt16).toNat = 2 ^ 11 - 1 := rfl
  rw [mapAddress, h, UInt16.toNat_and, hmask, Nat.and_two_pow_sub_one_eq_mod,
    BitVec.toNat_setWidth]
  rfl

theorem exists_cellClaims (h : Elapsed rom options n sys) {entries : List (UInt16 × UInt8)}
    (hentries : ∀ c ∈ entries, areaOf c.1 = .ram) :
    ∃ ts, cellClaims sys entries = .ok ts ∧ Claims rom n sys ts fun s =>
      ∀ c ∈ entries, s.ram (c.1.toBitVec.setWidth 11) = c.2.toBitVec := by
  have hclaim : ∀ c ∈ entries, Claims rom n sys
      [cellClaim (.symbol (sys.timeline.latest Ram.memory)) c] fun s =>
        s.ram (c.1.toBitVec.setWidth 11) = c.2.toBitVec := by
    intro c hc
    have hindex : ∀ I : Interpretation,
        I.denote (Ram.cellIndex (mapAddress c.1).1.toNat) = .bits 11 (c.1.toBitVec.setWidth 11) := by
      intro I
      rw [toNat_mapAddress (hentries c hc), Ram.cellIndex, Interpretation.denote_word]
      exact congrArg (Meaning.bits 11) (BitVec.ofNat_toNat ..)
    refine .eq (.select (evaluable_latest h .ram) (.word (by decide) (by decide) ?_))
      (.word (by decide) (by decide) c.2.toNat_lt)
      (fun hshows => Interpretation.denote_select (denote_latest_ram h hshows) (hindex _))
      (fun _ => ?_)
    · rw [toNat_mapAddress (hentries c hc)]
      exact BitVec.isLt _
    · rw [Interpretation.denote_word]
      simp
  have hclaims := Claims.map hclaim
  cases entries with
  | nil => exact ⟨[], rfl, hclaims⟩
  | cons c rest =>
    refine ⟨_, ?_, hclaims⟩
    have hsymbol : sys.symbol Ram.memory = _ := symbol_eq h .ram
    rw [cellClaims, hsymbol]
    · rfl
    · simp

/-- The claims of a valid scenario say that the last state is as expected. -/
theorem exists_claims (h : Elapsed rom options n sys) {s : Scenario} (hs : s.Valid) :
    ∃ ts, s.claims sys = .ok ts ∧ Claims rom n sys ts s.expect.Met := by
  obtain ⟨a, ha, hclaimA⟩ := exists_byteClaim h .a (fun _ => rfl) rfl rfl s.expect.a
  obtain ⟨x, hx, hclaimX⟩ := exists_byteClaim h .x (fun _ => rfl) rfl rfl s.expect.x
  obtain ⟨y, hy, hclaimY⟩ := exists_byteClaim h .y (fun _ => rfl) rfl rfl s.expect.y
  obtain ⟨sp, hsp, hclaimSp⟩ := exists_byteClaim h .sp (fun _ => rfl) rfl rfl s.expect.sp
  obtain ⟨pc, hpc, hclaimPc⟩ := exists_registerClaim h .pc (fun _ => rfl) rfl rfl (by decide)
    (by decide) UInt16.toNat UInt16.toBitVec (fun _ => rfl) s.expect.pc
  obtain ⟨p, hp, hclaimP⟩ := exists_statusClaim h hs.status
  obtain ⟨cells, hcells, hclaimCells⟩ := exists_cellClaims h hs.expected
  refine ⟨a ++ x ++ y ++ sp ++ pc ++ p ++ cells, ?_, ?_⟩
  · rw [claims_eq, ha, hx, hy, hsp, hpc, hp, hcells]
    rfl
  · refine ((((((hclaimA.append hclaimX).append hclaimY).append hclaimSp).append hclaimPc).append
      hclaimP).append hclaimCells).congr fun state => ?_
    rw [Expectation.met_iff]
    simp only [and_assoc]

end Elapsed

end Scenario

end CycleCheck
