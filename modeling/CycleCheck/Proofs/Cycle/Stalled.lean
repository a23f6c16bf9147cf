import CycleCheck.Proofs.Cycle.Completeness
import CycleCheck.Proofs.Cycle.Waiting

/-!
Machines that stall. A run with known registers and a full RAM makes all versions known up to the
first cycle without a transition. After it the blocks of all cycles wait, so what the formula of any
number of cycles makes known depends on the ROM, the registers and the RAM only.
-/

namespace CycleCheck

theorem Formula.not_mem_signature_truth (f : Formula) (y : String) :
    (y, Kind.truth) ∉ f.signature := by
  rw [Formula.signature, List.mem_filterMap]
  rintro ⟨c, -, hc⟩
  cases c <;> cases hc

namespace Cycle

open Processor Memory Propagation

variable {bits : Nat} {sig : Signature} {I : Interpretation} {t t' : Timeline} {j k n : Nat}

/-! ## What is known -/

/-- The open words of all cycles after the first `k`. -/
def opened (k : Nat) (y : String) : Prop :=
  ∃ w : Wire, w.Open ∧ ∃ v, k < v ∧ y = Timeline.versionedName w.name v

/-- The versions of the first `k` cycles, and all versions of constants. -/
def shown (bits k : Nat) (t : Timeline) : Scope := fun y j => ∃ (w : Wire) (v : Nat),
  v < t.next w.name ∧ (v < w.count k true 16 true ∨ w.Constant) ∧
    y = Timeline.versionedName w.name v ∧ j = w.kind bits

theorem free_of_opened {y : String} (h : opened k y) : (shown bits k t).Free y := by
  obtain ⟨w, hopen, v, hv, rfl⟩ := h
  rintro j ⟨w', v', -, hold, heq, -⟩
  obtain ⟨hname, rfl⟩ := Timeline.versionedName_injective heq
  obtain rfl := Wire.name_injective hname
  rcases hold with hlt | hconst
  · rw [hopen.count_eq] at hlt
    omega
  · exact hopen.not_constant hconst

theorem free_fresh (w : Wire) : (shown bits k t).Free (t.fresh w.name).name := by
  rintro j ⟨w', v, hv, -, heq, -⟩
  obtain ⟨hname, rfl⟩ := Timeline.versionedName_injective heq
  exact Nat.lt_irrefl _ (hname ▸ hv)

/-- Later cycles have more versions. -/
theorem count_le_of_lt (h : k < j) (w : Wire) (front : Bool) (i : Nat) (back : Bool) :
    w.count k true 16 true ≤ w.count j front i back := by
  cases w with
  | cpu v =>
    have hcount : (Wire.cpu v).count k true 16 true = k + 1 := by cases v <;> rfl
    rw [hcount, Wire.count]
    split_ifs <;> omega
  | answer page =>
    rw [Wire.count, if_pos page.isLt, Wire.count]
    split_ifs <;> omega
  | ram =>
    simp only [Wire.count]
    omega
  | prg => exact Nat.le_refl _
  | select | address | write | data =>
    simp only [Wire.count, Bool.toNat_true]
    omega

theorem count_mono (h : j ≤ k) (w : Wire) : w.count j true 16 true ≤ w.count k true 16 true := by
  rcases Nat.eq_or_lt_of_le h with rfl | hlt
  · exact Nat.le_refl _
  · exact count_le_of_lt hlt w true 16 true

/-- Up to cycle `k` all versions are shown. -/
theorem scope_eq_shown (bits : Nat) (ht : At t (Wire.count j true 16 true)) (hjk : j ≤ k)
    (htruth : ∀ y, ¬ t.scope (kindOf bits) y .truth) :
    t.scope (kindOf bits) = shown bits k t := by
  funext y l
  refine propext ⟨?_, ?_⟩
  · rintro ⟨x, v, hv, rfl, rfl⟩
    cases hfind : Wire.all.find? fun w => w.name == x with
    | none =>
      refine absurd ⟨x, v, hv, rfl, ?_⟩ (htruth _)
      rw [kindOf, hfind]
      rfl
    | some w =>
      obtain rfl : w.name = x := beq_iff_eq.1 (List.find?_some hfind :)
      have hlt := hv
      rw [ht w] at hlt
      exact ⟨w, v, hv, .inl (Nat.lt_of_lt_of_le hlt (count_mono hjk w)), rfl, kindOf_name bits w⟩
  · rintro ⟨w, v, hv, -, rfl, rfl⟩
    exact ⟨w.name, v, hv, rfl, (kindOf_name bits w).symm⟩

/-- What is known depends on the versions only. -/
theorem shown_congr {c : Wire → Nat} (ht : At t c) (ht' : At t' c) :
    shown bits k t = shown bits k t' := by
  funext y j
  simp only [shown, ht _, ht' _]

theorem shown_advance (hlate : ∀ w : Wire, w.count k true 16 true ≤ t.next w.name)
    (ws : List Wire) (y : String) (j : Kind) : shown bits k (t.advance (ws.map Wire.name)) y j ↔
      shown bits k t y j ∨
        ∃ w ∈ ws, w.Constant ∧ y = (t.fresh w.name).name ∧ j = w.kind bits := by
  have hnext : ∀ w : Wire, (t.advance (ws.map Wire.name)).next w.name =
      if w ∈ ws then t.next w.name + 1 else t.next w.name := by
    intro w
    rw [Timeline.next_advance]
    simp only [List.mem_map_of_injective Wire.name_injective]
  constructor
  · rintro ⟨w, v, hv, hold, rfl, rfl⟩
    rw [hnext] at hv
    by_cases hlt : v < t.next w.name
    · exact .inl ⟨w, v, hlt, hold, rfl, rfl⟩
    · split_ifs at hv with hw
      · obtain rfl : v = t.next w.name := by omega
        have hconst := hold.resolve_left (Nat.not_lt.2 (hlate w))
        exact .inr ⟨w, hw, hconst, rfl, rfl⟩
      · exact absurd hv hlt
  · rintro (⟨w, v, hv, hold, rfl, rfl⟩ | ⟨w, hw, hconst, rfl, rfl⟩)
    · refine ⟨w, v, ?_, hold, rfl, rfl⟩
      rw [hnext]
      split_ifs <;> omega
    · refine ⟨w, t.next w.name, ?_, .inr hconst, rfl, rfl⟩
      rw [hnext, if_pos hw]
      exact Nat.lt_succ_self _

/-- A block that writes no constants keeps what is known. -/
theorem Waits.shown_eq {b : Block} {rs ws : List Wire} (h : Waits bits b rs ws)
    (hlate : ∀ w : Wire, w.count k true 16 true ≤ t.next w.name) :
    shown bits k (t.advance b.writes) = shown bits k t := by
  funext y j
  rw [h.writes, shown_advance hlate]
  refine propext (or_iff_left ?_)
  rintro ⟨w, hw, hconst, -⟩
  exact h.varies w hw hconst

/-! ## Blocks in order -/

/-- A timeline past the first `k` cycles. -/
def Late (k : Nat) (t : Timeline) : Prop := ∀ w : Wire, w.count k true 16 true ≤ t.next w.name

theorem Late.yields (h : Late k t) {bs : List Block} {fs : List Formula}
    (hyields : t.Yields bs fs t') : Late k t' := fun w =>
  Nat.le_trans (h w) (hyields.next_le w.name)

theorem Late.of_at (hkj : k < j) {front back : Bool} {i : Nat}
    (ht : At t (Wire.count j front i back)) : Late k t := by
  intro w
  rw [ht w]
  exact count_le_of_lt hkj w front i back

/-- The commands of blocks keep what is known, and add constants to it. -/
def Delays (bits : Nat) (sig : Signature) (I : Interpretation) (k : Nat) (t : Timeline)
    (bs : List Block) : Prop :=
  ∀ fs t', t.Yields bs fs t' → (∀ y j, t'.scope (kindOf bits) y j → (y, j) ∈ sig) →
    (∀ f ∈ fs, I.Satisfies f) → Stalls sig (opened k) I (shown bits k t) (assertedTerms fs.flatten)
      (shown bits k t')

theorem Delays.append {bs bs' : List Block} (h : Delays bits sig I k t bs)
    (h' : ∀ fs t', t.Yields bs fs t' → Delays bits sig I k t' bs') :
    Delays bits sig I k t (bs ++ bs') := by
  intro fs t'' hyields hsig hsat
  obtain ⟨fs₁, fs₂, t', rfl, h₁, h₂⟩ := hyields.of_append
  obtain ⟨hsat₁, hsat₂⟩ := List.forall_mem_append.1 hsat
  rw [List.flatten_append, assertedTerms_append]
  exact (h fs₁ t' h₁ (fun y k hy => hsig y k (h₂.scope_mono hy)) hsat₁).append
    (h' fs₁ t' h₁ fs₂ t'' h₂ hsig hsat₂)

/-- What a block reads and writes is in scope after it. -/
theorem declared_of_apply {b : Block} {f : Formula} {rs ws : List Wire}
    (reads : b.reads = rs.map Wire.name) (writes : b.writes = ws.map Wire.name) (keeps : b.Keeps)
    (h : t.apply b = .ok (f, t')) (hsig : ∀ y j, t'.scope (kindOf bits) y j → (y, j) ∈ sig) :
    (∀ w ∈ rs, ((t.latest w.name).name, w.kind bits) ∈ sig) ∧
      ∀ w ∈ ws, ((t.fresh w.name).name, w.kind bits) ∈ sig := by
  obtain ⟨-, -, hreads⟩ := Timeline.generate_of_apply h
  have hscope := scope_of_apply bits writes keeps h
  rw [hscope] at hsig
  refine ⟨fun w hw => hsig _ _ (.inl ?_), fun w hw => hsig _ _ (.inr (List.mem_map_of_mem hw))⟩
  have hlatest := Timeline.scope_latest (κ := kindOf bits)
    (hreads w.name (reads ▸ List.mem_map_of_mem hw))
  rwa [kindOf_name] at hlatest

/-- A block that waits keeps what is known. -/
theorem Delays.waits {b : Block} {rs ws : List Wire} (hb : Waits bits b rs ws) (ht : Late k t)
    (hreads : ∀ w ∈ rs, w.Open → k + 1 < t.next w.name) : Delays bits sig I k t [b] := by
  intro fs t' h hsig _
  cases h with
  | cons first rest =>
    cases rest
    obtain ⟨hgen, -⟩ := Timeline.generate_of_apply first
    obtain ⟨hread, hwritten⟩ := declared_of_apply hb.reads hb.writes hb.keeps first hsig
    obtain rfl := Timeline.advance_of_apply hb.keeps first
    rw [hb.reads, hb.writes] at hgen
    rw [List.flatten_singleton, hb.shown_eq ht]
    refine .waiting (fun _ => free_of_opened) (hb.stuck ⟨hread, hwritten, fun w hw hopen => ?_,
      fun w hw hopen => ?_⟩ hgen)
    · exact ⟨w, hopen, t.next w.name - 1, by have := hreads w hw hopen; omega, rfl⟩
    · refine ⟨w, hopen, t.next w.name, ?_, rfl⟩
      have hle := ht w
      rwa [hopen.count_eq] at hle

/-- A block that writes a constant adds it to what is known. -/
theorem Delays.constant {b : Block} {w : Wire} (hb : Forward bits b [] [w] (fun _ => True))
    (hconst : w.Constant) (ht : Late k t) (fits : I.Fits sig) : Delays bits sig I k t [b] := by
  intro fs t' h hsig hsat
  cases h with
  | cons first rest =>
    cases rest
    obtain ⟨hgen, -⟩ := Timeline.generate_of_apply first
    obtain ⟨-, hwritten⟩ := declared_of_apply hb.reads hb.writes hb.keeps first hsig
    obtain rfl := Timeline.advance_of_apply hb.keeps first
    rw [hb.reads, hb.writes] at hgen
    have hmore : shown bits k (t.advance b.writes) =
        (shown bits k t).extend (written bits t.fresh [w]) := by
      funext y j
      rw [hb.writes, shown_advance ht]
      simp [Scope.extend, written, hconst]
    rw [List.flatten_singleton, hmore]
    refine .of_determines (hb.determines ⟨fits, by simp, hwritten, ?_⟩ hgen
      (hsat _ List.mem_cons_self) trivial)
    exact fun w _ => free_fresh w

/-! ## A phase and a cycle -/

variable {rom : Cartridge.Rom} {sys sys' : Machine}

/-- The handlers of a machine wait for the signals of the pages, or have constant answers. -/
def WaitingHandlers (bits : Nat) (sys : Machine) : Prop :=
  ∀ h ∈ sys.handlers,
    (∃ rs ws, Waits bits h.block rs ws ∧ ∀ w ∈ rs, w.Open → w ∈ frontWires) ∨
      ∃ page, (Wire.answer page).Constant ∧
        Forward bits h.block [] [.answer page] (fun _ => True)

theorem waitingHandlers_of_ofRom {options : MachineOptions} {log : Log}
    (h : Machine.ofRom rom options log = .ok sys) :
    WaitingHandlers sys.mapper.addressBits sys := by
  intro handler hmem
  obtain ⟨page, hpage⟩ := exists_handlerOf_eq_of_mem h hmem
  exact waits_handlerOf hpage

theorem delays_handlers {hs : List PageHandler}
    (hhs : ∀ h ∈ hs, (∃ rs ws, Waits bits h.block rs ws ∧ ∀ w ∈ rs, w.Open → w ∈ frontWires) ∨
      ∃ page, (Wire.answer page).Constant ∧
        Forward bits h.block [] [.answer page] (fun _ => True)) (ht : Late k t)
    (hsignals : ∀ w ∈ frontWires, k + 1 < t.next w.name) (fits : I.Fits sig) :
    Delays bits sig I k t (hs.map PageHandler.block) := by
  induction hs generalizing t with
  | nil =>
    intro fs t' h _ _
    cases h
    exact .of_determines .nil
  | cons h rest ih =>
    obtain ⟨hfirst, hrest⟩ := List.forall_mem_cons.1 hhs
    rw [List.map_cons, ← List.singleton_append]
    refine Delays.append ?_ fun fs t' hyields => ih hrest (ht.yields hyields) fun w hw =>
      Nat.lt_of_lt_of_le (hsignals w hw) (hyields.next_le w.name)
    rcases hfirst with ⟨rs, ws, hwaits, hreads⟩ | ⟨page, hconst, hforward⟩
    · exact .waits hwaits ht fun w hw hopen => hsignals w (hreads w hw hopen)
    · exact .constant hforward hconst ht fits

theorem delays_phase (hsys : Built rom sys) (hhandlers : WaitingHandlers bits sys)
    (ht : At t (Wire.count j false 0 false)) (hkj : k < j) (fits : I.Fits sig) :
    Delays bits sig I k t sys.busPhase := by
  obtain ⟨pages, hpages, hserves⟩ := hsys.handlers
  have hlate : Late k t := .of_at hkj ht
  have hblocks : sys.busPhase = [frontHalf pageSlots] ++ sys.handlers.map PageHandler.block ++
      [backHalf pageSlots] := by
    rw [Machine.busPhase, slots_eq hpages hserves]
    rfl
  rw [hblocks]
  refine Delays.append (Delays.append ?_ fun fs t₁ h => ?_) fun fs t₂ h => ?_
  · refine .waits (waits_frontHalf bits) hlate fun w hw _ => ?_
    simp only [List.mem_cons, List.not_mem_nil, or_false] at hw
    rcases hw with rfl | rfl | rfl <;> rw [ht _] <;> exact Nat.succ_lt_succ hkj
  · refine delays_handlers hhandlers (hlate.yields h) (fun w hw => ?_) fits
    obtain ⟨page, hw⟩ := (mem_frontWires_iff w).1 hw
    rw [h.eq_advance fun _ _ => rfl, (front_during t).at ht w, count_inputs hw]
    exact Nat.succ_lt_succ hkj
  · have hmap : sys.handlers.map PageHandler.block =
        (List.finRange 16).map fun page => (pages page).block := by
      rw [hpages, List.map_map]
      rfl
    refine .waits (waits_backHalf bits) (hlate.yields h) fun w hw hopen => ?_
    rw [hmap] at h
    rw [(during_of_yields hserves (sources_pos ht) h).at ht w]
    obtain ⟨page, -, hw⟩ := List.mem_flatMap.1 hw
    simp only [List.mem_cons, List.not_mem_nil, or_false] at hw
    rcases hw with rfl | rfl
    · exact Nat.succ_lt_succ hkj
    · rw [Wire.count, if_pos page.isLt]
      exact Nat.succ_lt_succ hkj

/-- The processor keeps what is known, at the cycle without a transition and after it. -/
theorem delays_processor (ht : At t (Wire.count j true 16 true)) (hkj : k ≤ j)
    (fits : I.Fits sig) {m : Cells} {s : State} (hs : Shows rom k m s I)
    (hstop : s.cpu.next? s.dataIn = none) :
    Delays bits sig I k t [Processor.standard.cycle] := by
  have hcount : ∀ v : Variable, t.next v.name = j + 1 := by
    intro v
    rw [show v.name = (Wire.cpu v).name from rfl, ht]
    cases v <;> rfl
  rcases Nat.eq_or_lt_of_le hkj with rfl | hlt
  · intro fs t' h hsig _
    cases h with
    | cons first rest =>
      cases rest
      have hwaits := waits_cycle bits
      obtain ⟨hgen, -⟩ := Timeline.generate_of_apply first
      obtain ⟨-, hwritten⟩ := declared_of_apply hwaits.reads hwaits.writes hwaits.keeps first hsig
      obtain rfl := Timeline.advance_of_apply hwaits.keeps first
      rw [hwaits.reads, hwaits.writes] at hgen
      rw [List.flatten_singleton, hwaits.shown_eq fun w => Nat.le_of_eq (ht w).symm]
      refine .of_determines (determines_cycle_stop ⟨fits, fun w hw => ?_, hwritten,
        fun w _ => free_fresh w⟩ hgen (fun v => ?_) hstop)
      · obtain ⟨v, -, rfl⟩ := List.mem_map.1 hw
        have hnext : t.next (Wire.cpu v).name = k + 1 := hcount v
        exact ⟨.cpu v, t.next (Wire.cpu v).name - 1, by omega, .inl (by rw [← ht]; omega), rfl, rfl⟩
      · rw [Timeline.latest, hcount]
        exact hs.values v
  · refine .waits (waits_cycle bits) (.of_at hlt ht) fun w hw _ => ?_
    obtain ⟨v, -, rfl⟩ := List.mem_map.1 hw
    rw [show (Wire.cpu v).name = v.name from rfl, hcount]
    exact Nat.succ_lt_succ hlt

theorem delays_cycle (hsys : Built rom sys) (hhandlers : WaitingHandlers bits sys)
    (ht : At t (Wire.count j true 16 true)) (hkj : k ≤ j) (fits : I.Fits sig) {m : Cells}
    {s : State} (hs : Shows rom k m s I) (hstop : s.cpu.next? s.dataIn = none) :
    Delays bits sig I k t (sys.processor.cycle :: sys.busPhase) := by
  rw [hsys.processor, ← List.singleton_append]
  refine (delays_processor ht hkj fits hs hstop).append fun fs t₁ h => ?_
  obtain ⟨fs', hyields, -⟩ := cycle_compiles rom ht
  obtain ⟨-, rfl⟩ := h.functional hyields
  exact delays_phase hsys hhandlers (cycle_at ht) (Nat.lt_succ_of_le hkj) fits

/-! ## Machines -/

/-- The assertions of a machine make the versions of the first `k` cycles known, and the rest of
them waits. -/
def Halts (bits : Nat) (sig : Signature) (I : Interpretation) (k : Nat) (sys : Machine) : Prop :=
  Stalls sig (opened k) I (fun _ _ => False) (assertedTerms sys.formula)
    (shown bits k sys.timeline)

theorem Settles.halts (h : Settles bits sig I sys)
    (ht : At sys.timeline (Wire.count j true 16 true)) (hjk : j ≤ k)
    (hsig : ∀ y l, sys.timeline.scope (kindOf bits) y l → (y, l) ∈ sig)
    (htruth : ∀ y, (y, .truth) ∉ sig) : Halts bits sig I k sys := by
  have hscope := scope_eq_shown bits ht hjk fun y hy => htruth y (hsig _ _ hy)
  rw [Settles, hscope] at h
  exact .of_determines h

/-- The assertions of a cycle: those before cycle `k` define all versions, those after it wait. -/
theorem Halts.step (h : Halts bits sig I k sys) (hsys : Running rom j sys)
    (hforward : ForwardHandlers bits sys) (hwaiting : WaitingHandlers bits sys)
    (hstep : sys.step = (sys', .ok ()))
    (hsys' : Running rom (j + 1) sys') (fits : I.Fits sig)
    (hsig : ∀ y l, sys'.timeline.scope (kindOf bits) y l → (y, l) ∈ sig)
    (htruth : ∀ y, (y, .truth) ∉ sig) (hsat : I.Satisfies sys'.formula) {trace : Nat → State}
    (hshows : ∀ i ≤ j + 1, Shows rom i (trace (i - 1)).ram (trace i) I)
    (hnext : ∀ i < k, ((trace i).cpu.next? (trace i).dataIn).isSome)
    (hstop : (trace k).cpu.next? (trace k).dataIn = none) : Halts bits sig I k sys' := by
  obtain ⟨fs, happlied⟩ := Machine.applied_of_step hstep
  rw [happlied.formula_eq, Interpretation.satisfies_append] at hsat
  have hsats := Interpretation.satisfies_flatten.1 hsat.2
  have hcommands : Stalls sig (opened k) I (shown bits k sys.timeline) (assertedTerms fs.flatten)
      (shown bits k sys'.timeline) := by
    rcases Nat.lt_or_ge j k with hlt | hge
    · have hforces := forces_cycle hsys.toBuilt hforward hsys.timeline fits
        (hshows j (by omega)) (hshows (j + 1) (Nat.le_refl _)) (hnext j hlt)
      have hdetermines := hforces fs _ happlied.yields hsig hsats
      rw [scope_eq_shown bits hsys.timeline (Nat.le_of_lt hlt) fun y hy =>
          htruth y (hsig _ _ (happlied.yields.scope_mono hy)),
        scope_eq_shown bits hsys'.timeline hlt fun y hy => htruth y (hsig _ _ hy)] at hdetermines
      exact .of_determines hdetermines
    · exact delays_cycle hsys.toBuilt hwaiting hsys.timeline hge fits
        (hshows k (by omega)) hstop fs _ happlied.yields hsig hsats
  rw [Halts, happlied.formula_eq, assertedTerms_append]
  exact h.append hcommands

theorem Halts.run (h : Halts bits sig I k sys) (hsys : Running rom j sys)
    (hforward : ForwardHandlers bits sys) (hwaiting : WaitingHandlers bits sys)
    (hrun : sys.run n = (sys', .ok ())) (fits : I.Fits sig)
    (hsig : ∀ y l, sys'.timeline.scope (kindOf bits) y l → (y, l) ∈ sig)
    (htruth : ∀ y, (y, .truth) ∉ sig) (hsat : I.Satisfies sys'.formula) {trace : Nat → State}
    (hshows : ∀ i ≤ j + n, Shows rom i (trace (i - 1)).ram (trace i) I)
    (hnext : ∀ i < k, ((trace i).cpu.next? (trace i).dataIn).isSome)
    (hstop : (trace k).cpu.next? (trace k).dataIn = none) : Halts bits sig I k sys' := by
  induction n generalizing j sys with
  | zero =>
    cases hrun
    exact h
  | succ n ih =>
    obtain ⟨sys₁, hstep, hrunning, -⟩ := exists_step hsys
    rw [Machine.run, hstep] at hrun
    obtain ⟨fs, happlied⟩ := Machine.applied_of_step hstep
    obtain ⟨bs, fs', happlied'⟩ := Machine.applied_of_run hrun
    have hsat₁ : I.Satisfies sys₁.formula := by
      rw [happlied'.formula_eq, Interpretation.satisfies_append] at hsat
      exact hsat.1
    have hfirst := h.step hsys hforward hwaiting hstep hrunning fits
      (fun y l hy => hsig y l (happlied'.yields.scope_mono hy)) htruth hsat₁
      (fun i hi => hshows i (by omega)) hnext hstop
    refine ih hfirst hrunning ?_ ?_ hrun fun i hi => ?_
    · rw [ForwardHandlers, happlied.handlers]
      exact hforward
    · rw [WaitingHandlers, happlied.handlers]
      exact hwaiting
    · exact hshows i (by omega)

variable {options : MachineOptions} {log : Log} {sys₀ sysₙ : Machine} {r : Registers}
  {image : ByteArray}

/-- The assertions of any number of cycles, of which the first `k` have transitions. -/
theorem Elapsed.halts (h : Elapsed rom options n sysₙ)
    (hsys : Machine.ofRom rom options log = .ok sys) (hpower : sys.powerOn = (sys₀, .ok ()))
    (hrun : sys₀.run n = (sysₙ, .ok ())) (hregisters : options.registers = some r)
    (hram : options.ram = some image) (himage : image.size = ramSize)
    (himplemented : Implemented rom r image k)
    (hstop : (run rom r image k).cpu.next? (run rom r image k).dataIn = none) :
    Halts sysₙ.mapper.addressBits sysₙ.formula.signature (interpretation rom (run rom r image)) k
      sysₙ := by
  have hassembled := assembled_of_ofRom hsys
  obtain ⟨_, hpower', hrunning, -⟩ := exists_powerOn hassembled fun data hdata => by
    cases hram.symm.trans hdata
    exact Nat.le_of_eq himage
  cases hpower.symm.trans hpower'
  have hbits : sys.mapper.addressBits = sysₙ.mapper.addressBits := by
    rw [hassembled.mapper.addressBits, h.mapper.addressBits]
  have fits := h.fits (run rom r image)
  have hshows : ShowsTrace rom n (run rom r image) (interpretation rom (run rom r image)) :=
    showsTrace_interpretation ..
  have hsat : (interpretation rom (run rom r image)).Satisfies sysₙ.formula :=
    (h.describes _ fits).2
      ⟨_, isTrace_run hregisters hram (Nat.le_of_eq himage) n, hshows, trivial⟩
  have hsig : ∀ y l, sysₙ.timeline.scope (kindOf sys.mapper.addressBits) y l →
      (y, l) ∈ sysₙ.formula.signature := fun y l => (hbits ▸ h.accounted.scope_iff y l).1
  obtain ⟨bs, fs, happlied⟩ := Machine.applied_of_run hrun
  obtain ⟨bs₀, fs₀, -, happlied₀⟩ := Machine.applied_of_powerOn hpower
  have hsat₀ : (interpretation rom (run rom r image)).Satisfies sys₀.formula := by
    rw [happlied.formula_eq, Interpretation.satisfies_append] at hsat
    exact hsat.1
  have hsig₀ : ∀ y l, sys₀.timeline.scope (kindOf sys.mapper.addressBits) y l →
      (y, l) ∈ sysₙ.formula.signature := fun y l hy => hsig y l (happlied.yields.scope_mono hy)
  have hsettled := settles_powerOn hassembled (forwardHandlers_of_ofRom hsys) hregisters hram himage
    hpower fits hsig₀ hsat₀ (hshows.shown 0 (Nat.zero_le n)).inputs
  have hhalted := hsettled.halts hrunning.timeline (Nat.zero_le k) hsig₀
    (Formula.not_mem_signature_truth _)
  rw [← hbits]
  refine hhalted.run hrunning ?_ ?_ hrun fits hsig
    (Formula.not_mem_signature_truth _) hsat (fun i hi => ?_) (run_next?_isSome himplemented) hstop
  · rw [ForwardHandlers, happlied₀.handlers]
    exact forwardHandlers_of_ofRom hsys
  · rw [WaitingHandlers, happlied₀.handlers]
    exact waitingHandlers_of_ofRom hsys
  · exact hshows.shown i (by omega)

end Cycle

end CycleCheck
