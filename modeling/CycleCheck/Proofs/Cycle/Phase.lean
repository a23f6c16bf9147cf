import CycleCheck.Proofs.Cycle.Bus

/-!
A bus phase. It may start at any timeline that has the signals of the processor and the two arrays.
How many versions each wire gets is known at each of its points, so what the front half, the
sixteen handlers and the back half say is said of known versions.
-/

namespace CycleCheck.Cycle

open Processor Memory

/-- The values of a version of the variables. -/
def version (I : Interpretation) (v : Nat) : Valuation := fun x => I (Timeline.versionedName x v)

/-! ## Versions -/

/-- How many versions a wire has in phase `k`: with the front half done or not, `i` handlers done
and the back half done or not. -/
def Wire.count (k : Nat) (front : Bool) (i : Nat) (back : Bool) : Wire → Nat
  | .cpu v => if v = .dataIn then k + back.toNat else k + 1
  | .select _ | .address _ | .write _ | .data _ => k + front.toNat
  | .answer page => if page.val < i then k + 1 else k
  | .ram => 2 * k + 1 + min i 2
  | .prg => 1

/-- The versions of the wires. -/
def At (t : Timeline) (n : Wire → Nat) : Prop := ∀ w : Wire, t.next w.name = n w

theorem At.latest {t : Timeline} {n : Wire → Nat} (h : At t n) (I : Interpretation) (w : Wire) :
    I (t.latest w.name).name = version I (n w - 1) w.name := by
  rw [Timeline.latest, h w]
  rfl

theorem At.fresh {t : Timeline} {n : Wire → Nat} (h : At t n) (I : Interpretation) (w : Wire) :
    I (t.fresh w.name).name = version I (n w) w.name := by
  rw [Timeline.fresh, h w]
  rfl

theorem At.advance {t : Timeline} {n n' : Wire → Nat} (h : At t n) (ws : List Wire)
    (hn : ∀ w, n' w = if w ∈ ws then n w + 1 else n w) : At (t.advance (ws.map Wire.name)) n' := by
  intro w
  rw [Timeline.next_advance, h w, hn w]
  simp only [List.mem_map_of_injective Wire.name_injective]

/-- A block on wires. -/
theorem compiles_of_wires {σ : Type} {t : Timeline} {b : Block} {P : σ → Valuation → Prop}
    {S : σ → Valuation → Valuation → Prop} {G Q : σ → Interpretation → Prop} (meaning : b.Says P S)
    (hreads : ∀ x ∈ b.reads, ∃ w : Wire, 0 < t.next w.name ∧ x = w.name)
    (hwrites : ∀ x ∈ b.writes, ∃ w : Wire, x = w.name)
    (hG : ∀ s I, G s I → P s fun x => I (t.latest x).name)
    (hQ : ∀ s I, G s I →
      (S s (fun x => I (t.latest x).name) (fun x => I (t.fresh x).name) ↔ Q s I)) :
    t.Compiles [b] (t.advance b.writes) G Q :=
  (Timeline.Compiles.block meaning (readable_of_wires hreads) (isName_of_wires hwrites) hG).congr hQ

theorem At.compiles {σ : Type} {t : Timeline} {n : Wire → Nat} (h : At t n) {b : Block}
    {P : σ → Valuation → Prop} {S : σ → Valuation → Valuation → Prop}
    {G Q : σ → Interpretation → Prop} (meaning : b.Says P S)
    (hreads : ∀ x ∈ b.reads, ∃ w : Wire, 0 < n w ∧ x = w.name)
    (hwrites : ∀ x ∈ b.writes, ∃ w : Wire, x = w.name)
    (hG : ∀ s I, G s I → P s fun x => I (t.latest x).name)
    (hQ : ∀ s I, G s I →
      (S s (fun x => I (t.latest x).name) (fun x => I (t.fresh x).name) ↔ Q s I)) :
    t.Compiles [b] (t.advance b.writes) G Q := by
  refine compiles_of_wires meaning (fun x hx => ?_) hwrites hG hQ
  obtain ⟨w, hw, rfl⟩ := hreads x hx
  exact ⟨w, by rwa [h w], rfl⟩

/-! ## Points of a phase -/

/-- How many versions a wire gets in a phase: with the front half done or not, `i` handlers done
and the back half done or not. -/
def Wire.added (front : Bool) (i : Nat) (back : Bool) : Wire → Nat
  | .cpu v => if v = .dataIn then back.toNat else 0
  | .select _ | .address _ | .write _ | .data _ => front.toNat
  | .answer page => if page.val < i then 1 else 0
  | .ram => min i 2
  | .prg => 0

theorem Wire.count_eq (k : Nat) (front : Bool) (i : Nat) (back : Bool) (w : Wire) :
    w.count k front i back = w.count k false 0 false + w.added front i back := by
  cases w with
  | cpu v => by_cases hv : v = .dataIn <;> simp [count, added, hv]
  | select | address | write | data => rfl
  | answer page => by_cases hpage : page.val < i <;> simp [count, added, hpage]
  | ram | prg => simp [count, added]

/-- A timeline at a point of the phase that starts at `t₀`. -/
def During (t₀ t : Timeline) (front : Bool) (i : Nat) (back : Bool) : Prop :=
  At t fun w => t₀.next w.name + w.added front i back

/-- The symbol of the version of a wire after `n` more versions. -/
def ahead (t : Timeline) (w : Wire) (n : Nat) : Symbol :=
  ⟨Timeline.versionedName w.name (t.next w.name + n)⟩

theorem ahead_zero (t : Timeline) (w : Wire) : ahead t w 0 = t.fresh w.name := rfl

theorem During.refl (t : Timeline) : During t t false 0 false := by
  intro w
  cases w <;> simp [Wire.added]

section During

variable {t₀ t : Timeline} {front back : Bool} {i : Nat} {w : Wire}

theorem During.next (h : During t₀ t front i back) (w : Wire) :
    t.next w.name = t₀.next w.name + w.added front i back := h w

theorem During.fresh (h : During t₀ t front i back) (w : Wire) :
    t.fresh w.name = ahead t₀ w (w.added front i back) := by
  rw [Timeline.fresh, h.next, ahead]

theorem During.latest_of_zero (h : During t₀ t front i back) (hw : w.added front i back = 0) :
    t.latest w.name = t₀.latest w.name := by
  rw [Timeline.latest, h.next, hw, Nat.add_zero, Timeline.latest]

theorem During.latest_of_succ (h : During t₀ t front i back) {n : Nat}
    (hw : w.added front i back = n + 1) : t.latest w.name = ahead t₀ w n := by
  rw [Timeline.latest, h.next, hw, ← Nat.add_assoc, Nat.add_sub_cancel, ahead]

theorem During.next_le (h : During t₀ t front i back) (w : Wire) :
    t₀.next w.name ≤ t.next w.name := by
  rw [h.next]
  exact Nat.le_add_right _ _

theorem During.at {k : Nat} (h : During t₀ t front i back)
    (ht : At t₀ (Wire.count k false 0 false)) : At t (Wire.count k front i back) := by
  intro w
  rw [h.next, ht w, w.count_eq k front i back]

end During

/-! ## The front half -/

/-- The wires that a phase reads and does not write first. -/
def sources : List Wire := [.cpu .addressBus, .cpu .writeEnable, .cpu .dataOut, .ram, .prg]

/-- What a phase finds: the signals of the processor, RAM before the phase and the ROM. -/
structure AccessStart (rom : Cartridge.Rom) (t : Timeline) (s : Cpu × Cells) (I : Interpretation) :
    Prop where
  bus : ShowsBus (fun x => I (t.latest x).name) s.1
  ram : I (t.latest Wire.ram.name).name = .array 11 8 s.2
  prg : I (t.latest Wire.prg.name).name = content rom

theorem pageInputs_congr {e e' : Valuation} {c : Cpu} {page : Fin 16}
    (h : ∀ w ∈ Wire.inputs page, e w.name = e' w.name) :
    PageInputs e c page ↔ PageInputs e' c page := by
  simp only [Wire.inputs, List.forall_mem_cons] at h
  obtain ⟨hselect, haddress, hwrite, hdata, -⟩ := h
  constructor
  · intro hp
    exact ⟨hselect ▸ hp.select, haddress ▸ hp.address, hwrite ▸ hp.write, hdata ▸ hp.data⟩
  · intro hp
    exact ⟨hselect ▸ hp.select, haddress ▸ hp.address, hwrite ▸ hp.write, hdata ▸ hp.data⟩

theorem added_inputs {page : Fin 16} {w : Wire} (hw : w ∈ Wire.inputs page) (front : Bool)
    (i : Nat) (back : Bool) : w.added front i back = front.toNat := by
  simp only [Wire.inputs, List.mem_cons, List.not_mem_nil, or_false] at hw
  rcases hw with rfl | rfl | rfl | rfl <;> rfl

theorem count_inputs {page : Fin 16} {w : Wire} (hw : w ∈ Wire.inputs page) (k : Nat) (front : Bool)
    (i : Nat) (back : Bool) : w.count k front i back = k + front.toNat := by
  simp only [Wire.inputs, List.mem_cons, List.not_mem_nil, or_false] at hw
  rcases hw with rfl | rfl | rfl | rfl <;> rfl

theorem mem_frontWires_iff (w : Wire) : w ∈ frontWires ↔ ∃ page, w ∈ Wire.inputs page := by
  simp [frontWires]

theorem front_during (t : Timeline) :
    During t (t.advance (frontHalf pageSlots).writes) true 0 false := by
  rw [writes_frontHalf]
  refine (During.refl t).advance _ fun w => ?_
  simp only [mem_frontWires_iff]
  cases w <;> simp [Wire.inputs, Wire.added]

theorem front_compiles (rom : Cartridge.Rom) {t : Timeline}
    (ht : ∀ w ∈ sources, 0 < t.next w.name) :
    t.Compiles [frontHalf pageSlots] (t.advance (frontHalf pageSlots).writes) (AccessStart rom t)
      (fun s I => ∀ page, PageInputs (fun x => I (t.fresh x).name) s.1 page) := by
  refine compiles_of_wires (frontHalf_means.comap Prod.fst) ?_ ?_ (fun s I h => h.bus)
    fun s I _ => Iff.rfl
  · simp only [sources, List.forall_mem_cons] at ht
    obtain ⟨hbus, hwrite, hdata, -⟩ := ht
    simp only [frontHalf, List.forall_mem_cons]
    exact ⟨⟨.cpu .addressBus, hbus, rfl⟩, ⟨.cpu .writeEnable, hwrite, rfl⟩,
      ⟨.cpu .dataOut, hdata, rfl⟩, by simp⟩
  · rw [writes_frontHalf]
    intro x hx
    obtain ⟨w, -, rfl⟩ := List.mem_map.1 hx
    exact ⟨w, rfl⟩

/-! ## The handlers -/

/-- What the handlers of a phase get. -/
structure PhaseInputs (rom : Cartridge.Rom) (t : Timeline) (s : Cpu × Cells) (I : Interpretation) :
    Prop where
  signals : ∀ page, PageInputs (fun x => I (t.fresh x).name) s.1 page
  ram : I (t.latest Wire.ram.name).name = .array 11 8 s.2
  prg : I (t.latest Wire.prg.name).name = content rom

/-- What the handler of a page gives in a phase. -/
structure PhaseOutputs (rom : Cartridge.Rom) (t : Timeline) (page : Fin 16) (s : Cpu × Cells)
    (I : Interpretation) : Prop where
  answer : I (t.fresh (Wire.answer page).name).name =
    .bits 8 (s.1.answer rom page (s.1.before page s.2))
  ram : page.val < 2 → I (ahead t .ram page).name =
    .array 11 8 (s.1.storePage page (s.1.before page s.2))

theorem handler_during {rom : Cartridge.Rom} {t₀ t : Timeline} {page : Fin 16} {h : PageHandler}
    (hserves : Serves rom page h) (ht : During t₀ t true page false) :
    During t₀ (t.advance h.block.writes) true (page + 1) false := by
  rw [hserves.writes]
  refine ht.advance _ fun w => ?_
  unfold writesOf
  cases w with
  | answer p =>
    have hmem : (Wire.answer p ∈ if page.val < 2 then [.ram, .answer page] else [.answer page]) ↔
        p = page := by
      split_ifs <;> simp
    simp only [hmem, Wire.added, Fin.ext_iff]
    split_ifs <;> omega
  | ram =>
    have hmem : (Wire.ram ∈ if page.val < 2 then [.ram, .answer page] else [.answer page]) ↔
        page.val < 2 := by
      split_ifs <;> simp_all
    simp only [hmem, Wire.added]
    split_ifs <;> omega
  | cpu | select | address | write | data | prg => split_ifs <;> simp_all [Wire.added]

theorem handler_compiles {rom : Cartridge.Rom} {t₀ t : Timeline} {page : Fin 16} {h : PageHandler}
    (hserves : Serves rom page h) (hstart : ∀ w ∈ sources, 0 < t₀.next w.name)
    (ht : During t₀ t true page false) :
    t.Compiles [h.block] (t.advance h.block.writes)
      (fun s I => PhaseInputs rom t₀ s I ∧ ∀ p : Fin 16, p < page → PhaseOutputs rom t₀ p s I)
      (PhaseOutputs rom t₀ page) := by
  have hinputs : ∀ I : Interpretation, ∀ w ∈ Wire.inputs page,
      I (t.latest w.name).name = I (t₀.fresh w.name).name := by
    intro I w hw
    rw [ht.latest_of_succ (added_inputs hw true page false), ahead_zero]
  refine compiles_of_wires hserves.meaning ?_ ?_ ?_ ?_
  · intro x hx
    obtain ⟨w, hw, rfl⟩ := hserves.reads x hx
    refine ⟨w, ?_, rfl⟩
    rcases List.mem_cons.1 hw with rfl | hw
    · exact Nat.lt_of_lt_of_le (hstart .ram (by decide)) (ht.next_le .ram)
    rcases List.mem_cons.1 hw with rfl | hw
    · exact Nat.lt_of_lt_of_le (hstart .prg (by decide)) (ht.next_le .prg)
    · rw [ht.next, added_inputs hw]
      exact Nat.succ_pos _
  · rw [hserves.writes]
    intro x hx
    obtain ⟨w, -, rfl⟩ := List.mem_map.1 hx
    exact ⟨w, rfl⟩
  · rintro s I ⟨hin, hbefore⟩
    refine ⟨(pageInputs_congr (hinputs I)).2 (hin.signals page), fun hpage => ?_, ?_⟩
    · by_cases hzero : page.val = 0
      · have hlatest : t.latest Wire.ram.name = t₀.latest Wire.ram.name :=
          ht.latest_of_zero (by simp [Wire.added, hzero])
        rw [hlatest, hzero, Cpu.before, if_pos rfl]
        exact hin.ram
      · have hone : page.val = 1 := by omega
        have hlatest : t.latest Wire.ram.name = ahead t₀ .ram 0 :=
          ht.latest_of_succ (by simp [Wire.added, hone])
        have hprev := (hbefore 0 (by omega)).ram (by decide)
        rw [hlatest, hone]
        exact hprev
    · rw [ht.latest_of_zero (w := .prg) rfl]
      exact hin.prg
  · intro s I _
    have hanswer : t.fresh (Wire.answer page).name = t₀.fresh (Wire.answer page).name := by
      rw [ht.fresh, Wire.added, if_neg (Nat.lt_irrefl _)]
      rfl
    have hram : page.val < 2 → t.fresh Wire.ram.name = ahead t₀ .ram page := by
      intro hpage
      rw [ht.fresh .ram, Wire.added, min_eq_left (Nat.le_of_lt hpage)]
    constructor
    · exact fun hout => ⟨hanswer ▸ hout.answer, fun hpage => hram hpage ▸ hout.ram hpage⟩
    · exact fun hout => ⟨hanswer.symm ▸ hout.answer, fun hpage =>
        (hram hpage).symm ▸ hout.ram hpage⟩

/-- The first `i` handlers, by induction: each of them starts where the one before it ends. -/
theorem handlers_compile {rom : Cartridge.Rom} {h : Fin 16 → PageHandler}
    (hserves : ∀ page, Serves rom page (h page)) {t₀ t : Timeline}
    (hstart : ∀ w ∈ sources, 0 < t₀.next w.name) (ht : During t₀ t true 0 false) (i : Nat)
    (hi : i ≤ 16) :
    ∃ t', During t₀ t' true i false ∧
      t.Compiles (((List.finRange 16).take i).map fun page => (h page).block) t'
        (PhaseInputs rom t₀)
        (fun s I => ∀ page : Fin 16, page.val < i → PhaseOutputs rom t₀ page s I) := by
  induction i with
  | zero => exact ⟨t, ht, .nil fun _ _ _ page hpage => absurd hpage (Nat.not_lt_zero _)⟩
  | succ i ih =>
    obtain ⟨t', ht', hcompiles⟩ := ih (Nat.le_of_succ_le hi)
    have hlt : i < (List.finRange 16).length := by
      rw [List.length_finRange]
      exact hi
    have htake : (List.finRange 16).take (i + 1) = (List.finRange 16).take i ++ [⟨i, hi⟩] := by
      rw [← List.take_append_getElem hlt, List.getElem_finRange]
      rfl
    have hnext := handler_compiles (hserves ⟨i, hi⟩) hstart ht'
    refine ⟨_, handler_during (hserves ⟨i, hi⟩) ht', ?_⟩
    rw [htake, List.map_append]
    refine (hcompiles.append hnext fun s I hin hprev => ⟨hin, fun p hp => hprev p hp⟩).congr
      fun s I _ => ?_
    constructor
    · rintro ⟨hfirst, hlast⟩ page hpage
      rcases Nat.lt_succ_iff_lt_or_eq.1 hpage with hlt | heq
      · exact hfirst page hlt
      · obtain rfl : page = ⟨i, hi⟩ := Fin.ext heq
        exact hlast
    · exact fun hall => ⟨fun page hpage => hall page (Nat.lt_succ_of_lt hpage),
        hall ⟨i, hi⟩ (Nat.lt_succ_self i)⟩

/-! ## The phase -/

/-- The values that a phase makes, `m` in RAM before it. -/
structure Access (rom : Cartridge.Rom) (t : Timeline) (c : Cpu) (m : Cells) (I : Interpretation) :
    Prop where
  inputs : ∀ page, PageInputs (fun x => I (t.fresh x).name) c page
  answers : ∀ page : Fin 16, I (t.fresh (Wire.answer page).name).name =
    .bits 8 (c.answer rom page (c.before page m))
  middle : I (t.fresh Ram.memory).name = .array 11 8 (c.storePage 0 m)
  ram : I (ahead t .ram 1).name = .array 11 8 (c.store m)
  dataIn : I (t.fresh Variable.dataIn.name).name = .bits 8 (c.respond rom m)

theorem back_during {t₀ t : Timeline} (ht : During t₀ t true 16 false) :
    During t₀ (t.advance (backHalf pageSlots).writes) true 16 true := by
  refine ht.advance [.cpu .dataIn] fun w => ?_
  cases w with
  | cpu v => by_cases hv : v = .dataIn <;> simp [hv, Wire.added]
  | select | address | write | data | answer | ram | prg => simp [Wire.added]

theorem back_compiles {rom : Cartridge.Rom} (hsize : rom.prg.size ∣ 0x8000) {t₀ t : Timeline}
    (ht : During t₀ t true 16 false) :
    t.Compiles [backHalf pageSlots] (t.advance (backHalf pageSlots).writes)
      (fun s I => PhaseInputs rom t₀ s I ∧ ∀ page, PhaseOutputs rom t₀ page s I)
      (fun s I => I (t₀.fresh Variable.dataIn.name).name = .bits 8 (s.1.respond rom s.2)) := by
  have hone : ∀ w : Wire, w.added true 16 false = 1 → t.latest w.name = t₀.fresh w.name := by
    intro w hw
    rw [ht.latest_of_succ hw, ahead_zero]
  have hpos : ∀ w : Wire, w.added true 16 false = 1 → 0 < t.next w.name := by
    intro w hw
    rw [ht.next, hw]
    exact Nat.succ_pos _
  have hanswer : ∀ page : Fin 16, (Wire.answer page).added true 16 false = 1 :=
    fun page => if_pos page.isLt
  refine compiles_of_wires (backHalf_means fun s page => s.1.answer rom page (s.1.before page s.2))
    ?_ ?_ ?_ ?_
  · rw [reads_backHalf]
    intro x hx
    obtain ⟨w, hw, rfl⟩ := List.mem_map.1 hx
    obtain ⟨page, -, hw⟩ := List.mem_flatMap.1 hw
    simp only [List.mem_cons, List.not_mem_nil, or_false] at hw
    rcases hw with rfl | rfl
    · exact ⟨.select page, hpos (.select page) rfl, rfl⟩
    · exact ⟨.answer page, hpos (.answer page) (hanswer page), rfl⟩
  · intro x hx
    rw [List.mem_singleton.1 hx]
    exact ⟨.cpu .dataIn, rfl⟩
  · rintro s I ⟨hin, hout⟩ page
    have hlatest : ∀ w : Wire, w.added true 16 false = 1 →
        I (t.latest w.name).name = I (t₀.fresh w.name).name := fun w hw => by rw [hone w hw]
    exact ⟨(hlatest (.select page) rfl).trans (hin.signals page).select,
      (hlatest (.answer page) (hanswer page)).trans (hout page).answer⟩
  · rintro s I -
    have hfresh : I (t.fresh Variable.dataIn.name).name = I (t₀.fresh Variable.dataIn.name).name :=
      congrArg (fun x => I x.name) (ht.fresh (.cpu .dataIn))
    have hlt : s.1.page < 16 := by
      unfold Cpu.page
      omega
    rw [Cpu.respond_eq _ rom hsize, ← hfresh]
    constructor
    · exact fun hall => hall ⟨s.1.page, hlt⟩ rfl
    · rintro hdata page hpage
      exact hdata.trans (by rw [hpage])

/-- A machine with a ROM: its handlers do the work of their pages. -/
structure Built (rom : Cartridge.Rom) (sys : Machine) : Prop where
  processor : sys.processor = .standard
  mapper : MapsTo sys.mapper rom
  handlers : ∃ h : Fin 16 → PageHandler, sys.handlers = (List.finRange 16).map h ∧
    ∀ page, Serves rom page (h page)

theorem slots_eq {rom : Cartridge.Rom} {sys : Machine} {h : Fin 16 → PageHandler}
    (hsys : sys.handlers = (List.finRange 16).map h) (hserves : ∀ page, Serves rom page (h page)) :
    sys.slots = pageSlots := by
  rw [Machine.slots, hsys, pageSlots]
  refine List.ext_getElem (by simp) fun i hi _ => ?_
  simp [(hserves _).stem]

/-- The blocks of a phase say what the bus does. -/
theorem access_compiles {rom : Cartridge.Rom} {sys : Machine} (hsys : Built rom sys) {t : Timeline}
    (ht : ∀ w ∈ sources, 0 < t.next w.name) :
    ∃ t', During t t' true 16 true ∧
      t.Compiles sys.busPhase t' (AccessStart rom t) (fun s I => Access rom t s.1 s.2 I) := by
  obtain ⟨h, hhandlers, hserves⟩ := hsys.handlers
  have hfront := front_compiles rom ht
  obtain ⟨t', ht', hpages⟩ := handlers_compile hserves ht (front_during t) 16 (Nat.le_refl _)
  have hback := back_compiles hsys.mapper.size_dvd ht'
  rw [List.take_of_length_le (by simp)] at hpages
  have hblocks : sys.busPhase = [frontHalf pageSlots] ++
      ((List.finRange 16).map fun page => (h page).block) ++ [backHalf pageSlots] := by
    rw [Machine.busPhase, slots_eq hhandlers hserves, hhandlers, List.map_map]
    rfl
  refine ⟨_, back_during ht', ?_⟩
  rw [hblocks]
  refine ((hfront.append hpages fun s I hG hin => ⟨hin, hG.ram, hG.prg⟩).append hback
    fun s I hG hQ => ⟨⟨hQ.1, hG.ram, hG.prg⟩, fun page => hQ.2 page page.isLt⟩).congr
      fun s I _ => ?_
  constructor
  · rintro ⟨⟨hin, hout⟩, hdata⟩
    refine ⟨hin, fun page => (hout page page.isLt).answer, (hout 0 (by decide)).ram (by decide), ?_,
      hdata⟩
    rw [Cpu.store_eq]
    exact (hout 1 (by decide)).ram (by decide)
  · intro haccess
    have hram := haccess.ram
    rw [Cpu.store_eq] at hram
    refine ⟨⟨haccess.inputs, fun page _ => ⟨haccess.answers page, fun hpage => ?_⟩⟩,
      haccess.dataIn⟩
    have hcases : page = 0 ∨ page = 1 := by omega
    rcases hcases with rfl | rfl
    · exact haccess.middle
    · exact hram

/-- The timeline before the back half of a phase is the one after all its handlers. -/
theorem during_of_yields {rom : Cartridge.Rom} {h : Fin 16 → PageHandler}
    (hserves : ∀ page, Serves rom page (h page)) {t t' : Timeline}
    (ht : ∀ w ∈ sources, 0 < t.next w.name) {fs : List Formula}
    (hyields : t.Yields ([frontHalf pageSlots] ++ (List.finRange 16).map fun page => (h page).block)
      fs t') : During t t' true 16 false := by
  obtain ⟨fs₀, hfront, -⟩ := front_compiles rom ht
  obtain ⟨t₁, ht₁, fs₁, hpages, -⟩ :=
    handlers_compile hserves ht (front_during t) 16 (Nat.le_refl _)
  rw [List.take_of_length_le (by simp)] at hpages
  obtain ⟨-, rfl⟩ := hyields.functional (hfront.append hpages)
  exact ht₁

/-! ## Numbered phases -/

/-- What phase `k` finds: the outputs of the processor, RAM before the phase and the ROM. -/
structure PhaseStart (rom : Cartridge.Rom) (k : Nat) (s : Cpu × Cells) (I : Interpretation) :
    Prop where
  cpu : ShowsCpu (version I k) s.1
  ram : version I (2 * k) Wire.ram.name = .array 11 8 s.2
  prg : version I 0 Wire.prg.name = content rom

/-- The values of the variables in phase `k`, `m` in RAM before it. -/
structure Phase (rom : Cartridge.Rom) (k : Nat) (c : Cpu) (m : Cells) (I : Interpretation) :
    Prop where
  inputs : ∀ page, PageInputs (version I k) c page
  answers : ∀ page : Fin 16, version I k (Wire.answer page).name =
    .bits 8 (c.answer rom page (c.before page m))
  middle : version I (2 * k + 1) Ram.memory = .array 11 8 (c.storePage 0 m)
  ram : version I (2 * k + 2) Ram.memory = .array 11 8 (c.store m)
  dataIn : version I k Variable.dataIn.name = .bits 8 (c.respond rom m)

section Numbered

variable {rom : Cartridge.Rom} {t : Timeline} {k : Nat} {I : Interpretation}

theorem sources_pos (ht : At t (Wire.count k false 0 false)) :
    ∀ w ∈ sources, 0 < t.next w.name := by
  simp only [sources, List.forall_mem_cons, ht _]
  simp [Wire.count]

theorem accessStart_of_phaseStart (ht : At t (Wire.count k false 0 false)) {s : Cpu × Cells}
    (h : PhaseStart rom k s I) : AccessStart rom t s I where
  bus := ⟨(ht.latest I (.cpu .addressBus)).trans (h.cpu.bus).addressBus,
    (ht.latest I (.cpu .writeEnable)).trans (h.cpu.bus).writeEnable,
    (ht.latest I (.cpu .dataOut)).trans (h.cpu.bus).dataOut⟩
  ram := (ht.latest I .ram).trans h.ram
  prg := (ht.latest I .prg).trans h.prg

theorem access_iff_phase (ht : At t (Wire.count k false 0 false)) {c : Cpu} {m : Cells} :
    Access rom t c m I ↔ Phase rom k c m I := by
  have hinputs : ∀ page : Fin 16, PageInputs (fun x => I (t.fresh x).name) c page ↔
      PageInputs (version I k) c page := fun page => pageInputs_congr fun w hw => by
    rw [ht.fresh I w, count_inputs hw]
    rfl
  have hanswer : ∀ page : Fin 16, I (t.fresh (Wire.answer page).name).name =
      version I k (Wire.answer page).name := fun page => by
    rw [ht.fresh I (.answer page), Wire.count, if_neg (Nat.not_lt_zero _)]
  have hmiddle : I (t.fresh Ram.memory).name = version I (2 * k + 1) Ram.memory :=
    ht.fresh I .ram
  have hram : I (ahead t .ram 1).name = version I (2 * k + 2) Ram.memory := by
    rw [ahead, ht .ram]
    rfl
  have hdata : I (t.fresh Variable.dataIn.name).name = version I k Variable.dataIn.name :=
    ht.fresh I (.cpu .dataIn)
  constructor
  · intro h
    exact ⟨fun page => (hinputs page).1 (h.inputs page),
      fun page => (hanswer page).symm.trans (h.answers page), hmiddle.symm.trans h.middle,
      hram.symm.trans h.ram, hdata.symm.trans h.dataIn⟩
  · intro h
    exact ⟨fun page => (hinputs page).2 (h.inputs page),
      fun page => (hanswer page).trans (h.answers page), hmiddle.trans h.middle,
      hram.trans h.ram, hdata.trans h.dataIn⟩

/-- The blocks of phase `k` say what the bus does. -/
theorem phase_compiles {sys : Machine} (hsys : Built rom sys)
    (ht : At t (Wire.count k false 0 false)) :
    ∃ t', At t' (Wire.count k true 16 true) ∧
      t.Compiles sys.busPhase t' (PhaseStart rom k) (fun s I => Phase rom k s.1 s.2 I) := by
  obtain ⟨t', ht', hcompiles⟩ := access_compiles hsys (sources_pos ht)
  refine ⟨t', ht'.at ht, (hcompiles.weaken fun s I => accessStart_of_phaseStart ht).congr ?_⟩
  exact fun s I _ => access_iff_phase ht

end Numbered

end CycleCheck.Cycle
