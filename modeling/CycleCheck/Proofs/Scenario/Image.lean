import CycleCheck.Proofs.Scenario.Order
import CycleCheck.Propagation.Pass
import Mathlib.Tactic.Common

/-!
The memory that a valid scenario starts with. Its cartridge is built without an error and keeps the
size it has before the program is written, so that there is a mapper for it; its RAM is full.
-/

namespace CycleCheck

namespace Bytes

@[simp] theorem size_put (data : ByteArray) (i : Nat) (v : UInt8) :
    (put data i v).size = data.size := by
  unfold put
  split
  · exact Array.size_set ..
  · rfl

theorem get_put (data : ByteArray) (i j : Nat) (v : UInt8) :
    get (put data i v) j = if i = j ∧ i < data.size then v else get data j := by
  by_cases hi : i < data.size
  · have hput : put data i v = data.set i v hi := dif_pos hi
    have hsize : (data.set i v hi).size = data.size := Array.size_set ..
    unfold get
    rw [hput]
    by_cases hj : j < data.size
    · rw [dif_pos (by rwa [hsize]), dif_pos hj]
      simp only [hi, and_true]
      exact Array.getElem_set ..
    · rw [dif_neg (by rwa [hsize]), dif_neg hj, if_neg (by omega)]
  · have hput : put data i v = data := dif_neg hi
    rw [hput, if_neg fun h => hi h.2]

@[simp] theorem size_zeros (n : Nat) : (zeros n).size = n := Array.size_replicate

end Bytes

namespace Memory

theorem pageOf_eq (a : UInt16) : pageOf a = a.toNat / 0x1000 := Nat.shiftRight_eq_div_pow ..

theorem areaOf_eq_cartridge_iff {a : UInt16} : areaOf a = .cartridge ↔ 0x8000 ≤ a.toNat := by
  have hlt := a.toNat_lt
  rw [areaOf, areaOfPage, pageOf_eq]
  split_ifs
  all_goals simp_all [pageCount]
  all_goals omega

end Memory

namespace Cartridge.Builder

open Memory

/-- A builder without an error, with content of a size for the mapper without bank switching. -/
structure Plain (size : Nat) (b : Builder) : Prop where
  error : b.error = none
  mapper : b.rom.mapper = 0
  size : b.rom.prg.size = size

variable {size : Nat} {b : Builder}

theorem plain_empty : Plain bankSize {} := ⟨rfl, rfl, Bytes.size_zeros _⟩

theorem Plain.name (h : Plain size b) (s : String) : Plain size (b.name s) :=
  ⟨h.error, h.mapper, h.size⟩

/-- What one step keeps. -/
theorem Plain.step (h : Plain size b) {size' : Nat} {f : Rom → Except BuildError Rom} {rom : Rom}
    (hf : f b.rom = .ok rom) (hmapper : rom.mapper = 0) (hsize : rom.prg.size = size') :
    Plain size' (b.step f) := by
  rw [Builder.step, h.error]
  simp only [hf]
  exact ⟨rfl, hmapper, hsize⟩

theorem Plain.setMapper (h : Plain size b) {n : Nat} (hn : n = 0) : Plain size (b.mapper n) := by
  subst hn
  exact h.step rfl rfl h.size

theorem Plain.prg (h : Plain size b) {data : ByteArray} (hempty : data.size ≠ 0)
    (hbanks : data.size % bankSize = 0) : Plain data.size (b.prg data) :=
  h.step (if_neg (by simp [hempty, hbanks])) h.mapper rfl

/-- Bytes inside the cartridge area can be put there. -/
theorem exists_poke {address : Nat} {data : List UInt8} (prg : ByteArray)
    (hfirst : originCartridge ≤ address) (hlast : address + data.length ≤ memtop + 1) :
    ∃ prg', poke address data prg = .ok prg' ∧ prg'.size = prg.size := by
  induction data generalizing address prg with
  | nil => exact ⟨prg, rfl, rfl⟩
  | cons v rest ih =>
    rw [List.length_cons] at hlast
    obtain ⟨prg', hpoke, hsize⟩ := ih
      (Bytes.put prg ((address - originCartridge) % prg.size) v) (Nat.le_succ_of_le hfirst)
      (by omega)
    refine ⟨prg', ?_, hsize.trans (Bytes.size_put ..)⟩
    have hinside : ¬ (address < originCartridge || address > memtop) = true := by
      simp only [Bool.or_eq_true, decide_eq_true_eq]
      omega
    rw [poke, if_neg hinside, hpoke]

theorem Plain.write (h : Plain size b) {address : Nat} {data : List UInt8}
    (hfirst : originCartridge ≤ address) (hlast : address + data.length ≤ memtop + 1) :
    Plain size (b.write address data) := by
  obtain ⟨prg', hpoke, hsize⟩ := exists_poke b.rom.prg hfirst hlast
  have hstep : (do
      let prg ← poke address data b.rom.prg
      pure { b.rom with prg }) = .ok { b.rom with prg := prg' } := by
    rw [hpoke]
    rfl
  exact h.step hstep h.mapper (hsize.trans h.size)

theorem Plain.vector (h : Plain size b) {address : Nat} (hfirst : originCartridge ≤ address)
    (hlast : address + 2 ≤ memtop + 1) (v : UInt16) : Plain size (b.vector address v) :=
  h.write hfirst hlast

theorem Plain.resetVector (h : Plain size b) (v : UInt16) :
    Plain size (b.vector Processor.resetVectorLow v) :=
  h.vector (by decide) (by simp [Processor.resetVectorLow, memtop]) v

end Cartridge.Builder

namespace Scenario

open Memory Cartridge

/-! ## Valid scenarios -/

/-- What is true of a scenario that makes sense. -/
structure Valid (s : Scenario) : Prop where
  status : s.expect.p ≠ "" → ∃ f, Processor.StatusFlags.parse s.expect.p = .ok f
  program : areaOf s.origin = .ram ∧ s.origin.toNat + s.program.length ≤ ramSize ∨
    areaOf s.origin = .cartridge ∧ s.origin.toNat + s.program.length ≤ memtop + 1
  ram : ∀ e ∈ ByteMap.entriesOf s.ram, areaOf e.1 = .ram
  expected : ∀ e ∈ ByteMap.entriesOf s.expect.ram, areaOf e.1 = .ram
  prg : ∀ e ∈ ByteMap.entriesOf s.prg, areaOf e.1 = .cartridge

theorem valid_of_validate {s : Scenario} {order : MapOrder} (h : s.validate order = .ok ()) :
    s.Valid := by
  have hflaws : s.checkFlaws order = .ok () := by
    unfold validate at h
    split_ifs at h
    cases hc : s.checkFlaws order with
    | ok u => rfl
    | error e =>
      rw [hc] at h
      cases h
  unfold checkFlaws at hflaws
  simp only at hflaws
  have hcycles : ¬ s.cycles < 0 := by
    intro hneg
    rw [if_pos hneg] at hflaws
    cases hflaws
  have hexpects : ¬ s.expect.isEmpty = true := by
    intro hnothing
    rw [if_neg hcycles, if_pos hnothing] at hflaws
    cases hflaws
  rw [if_neg hcycles, if_neg hexpects] at hflaws
  obtain ⟨_, hstatus, hflaws⟩ := Propagation.exists_ok_of_bind hflaws
  obtain ⟨_, horigin, hflaws⟩ := Propagation.exists_ok_of_bind hflaws
  obtain ⟨_, hram, hflaws⟩ := Propagation.exists_ok_of_bind hflaws
  obtain ⟨_, hexpected, hprg⟩ := Propagation.exists_ok_of_bind hflaws
  refine ⟨fun hp => ?_, ?_, forall_of_checkArea hram, forall_of_checkArea hexpected,
    forall_of_checkArea hprg⟩
  · unfold checkStatus at hstatus
    rw [if_neg (by simpa using hp)] at hstatus
    split at hstatus
    · next f hf => exact ⟨f, hf⟩
    · cases hstatus
  · unfold checkOrigin at horigin
    simp only at horigin
    split at horigin
    · next harea =>
      split_ifs at horigin with hlast
      exact .inl ⟨harea, Nat.le_of_not_lt hlast⟩
    · next harea =>
      split_ifs at horigin with hlast
      exact .inr ⟨harea, Nat.le_of_not_lt hlast⟩
    · cases horigin

/-! ## The memory of a scenario -/

theorem size_placeBytes (i : Nat) (data : List UInt8) (image : ByteArray) :
    (placeBytes i data image).size = image.size := by
  induction data generalizing i image with
  | nil => rfl
  | cons v rest ih => rw [placeBytes, ih, Bytes.size_put]

theorem size_ramImage (s : Scenario) : s.ramImage.size = ramSize := by
  have hbytes : ∀ (entries : List (UInt16 × UInt8)) (image : ByteArray),
      (entries.foldl (fun m e => Bytes.put m (mapAddress e.1).1.toNat e.2) image).size =
        image.size := by
    intro entries
    induction entries with
    | nil => exact fun _ => rfl
    | cons e rest ih => exact fun image => (ih _).trans (Bytes.size_put ..)
  rw [ramImage, hbytes]
  split_ifs
  · rw [size_placeBytes, Bytes.size_zeros]
  · exact Bytes.size_zeros _

variable {s : Scenario} {options : ScenarioOptions}

theorem plain_cartridge (s : Scenario)
    (hrom : ∀ rom, options.rom = some rom →
      rom.mapper = 0 ∧ (rom.prg.size = bankSize ∨ rom.prg.size = 2 * bankSize)) :
    ∃ size, (size = bankSize ∨ size = 2 * bankSize) ∧ (s.cartridge options).Plain size := by
  have hempty := Builder.plain_empty.name s.name
  unfold cartridge
  cases hgiven : options.rom with
  | none => exact ⟨bankSize, .inl rfl, hempty.resetVector _⟩
  | some rom =>
    obtain ⟨hmapper, hsize⟩ := hrom rom hgiven
    have hpos : rom.prg.size ≠ 0 ∧ rom.prg.size % bankSize = 0 := by
      rcases hsize with h | h <;> rw [h] <;> decide
    have hbase := ((hempty.name rom.name).setMapper hmapper).prg hpos.1 hpos.2
    refine ⟨rom.prg.size, hsize, ?_⟩
    cases s.vector with
    | none => exact hbase
    | some v => exact hbase.resetVector v

/-- The cartridge of a valid scenario is built, and there is a mapper for it. -/
theorem exists_rom (hs : s.Valid)
    (hrom : ∀ rom, options.rom = some rom →
      rom.mapper = 0 ∧ (rom.prg.size = bankSize ∨ rom.prg.size = 2 * bankSize)) :
    ∃ rom m, (s.fullCartridge options).build = .ok rom ∧ Mapper.ofRom rom = .ok m := by
  obtain ⟨size, hsize, hplain⟩ := plain_cartridge s hrom
  have hprogram : Builder.Plain size (if areaOf s.origin = .ram then s.cartridge options
      else (s.cartridge options).write s.origin.toNat s.program) := by
    split_ifs with hram
    · exact hplain
    · obtain ⟨harea, hlast⟩ := hs.program.resolve_left fun h => hram h.1
      exact hplain.write (areaOf_eq_cartridge_iff.1 harea) hlast
  have hbytes : ∀ (entries : List (UInt16 × UInt8)) (b : Builder),
      (∀ e ∈ entries, areaOf e.1 = .cartridge) → b.Plain size →
        (entries.foldl (fun b e => b.write e.1.toNat [e.2]) b).Plain size := by
    intro entries
    induction entries with
    | nil => exact fun b _ h => h
    | cons e rest ih =>
      intro b harea h
      obtain ⟨he, hrest⟩ := List.forall_mem_cons.1 harea
      have hlt := e.1.toNat_lt
      refine ih _ hrest (h.write (areaOf_eq_cartridge_iff.1 he) ?_)
      rw [List.length_singleton, memtop]
      omega
  have hfull := hbytes _ _ hs.prg hprogram
  have hbuild : (s.fullCartridge options).build = .ok (s.fullCartridge options).rom := by
    rw [Builder.build, fullCartridge, hfull.error]
  have hmapped : ∃ m, Mapper.ofRom (s.fullCartridge options).rom = .ok m := by
    have hmapper : (s.fullCartridge options).rom.mapper = 0 := hfull.mapper
    have hbanks : (s.fullCartridge options).rom.prg.size = size := hfull.size
    rw [Mapper.ofRom, if_neg (Decidable.not_not.2 hmapper), hbanks]
    rcases hsize with rfl | rfl
    · exact ⟨_, if_pos rfl⟩
    · exact ⟨_, (if_neg (by decide)).trans (if_pos rfl)⟩
  obtain ⟨m, hm⟩ := hmapped
  exact ⟨_, m, hbuild, hm⟩

end Scenario

end CycleCheck
