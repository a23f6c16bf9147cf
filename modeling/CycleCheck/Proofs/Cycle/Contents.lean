import CycleCheck.Proofs.Cycle.Memory

/-!
Contents at power on. RAM may hold anything, except for the bytes that are supplied; the array of
the ROM holds the bytes of the ROM and nothing else.
-/

namespace CycleCheck.Cycle

open Memory

/-! ## Bytes in order -/

theorem toList_loop_eq (data : ByteArray) (i : Nat) (acc : List UInt8) :
    ByteArray.toList.loop data i acc =
      acc.reverse ++ (List.range' i (data.size - i)).map (Bytes.get data) := by
  fun_induction ByteArray.toList.loop data i acc with
  | case1 i acc hi ih =>
    have hget : data.get! i = Bytes.get data i := by
      rw [Bytes.get, dif_pos hi, show data.get! i = data.data[i]! by cases data; rfl]
      exact getElem!_pos data.data i hi
    rw [ih, show data.size - i = data.size - (i + 1) + 1 by omega, List.range'_succ, hget]
    simp
  | case2 i acc hi =>
    rw [show data.size - i = 0 by omega]
    simp

theorem toList_eq (data : ByteArray) :
    data.toList = (List.range data.size).map (Bytes.get data) := by
  rw [ByteArray.toList, toList_loop_eq, List.range_eq_range']
  simp

/-- Commands for all bytes. -/
theorem mapIdx_bytes (data : ByteArray) (t : Nat → UInt8 → Term) :
    (data.toList.mapIdx fun i b => Command.assert (t i b)) =
      (List.range data.size).map fun i => .assert (t i (Bytes.get data i)) := by
  rw [toList_eq]
  refine List.ext_getElem (by simp) fun i _ _ => ?_
  simp

theorem satisfies_bytes {I : Interpretation} {data : ByteArray} {t : Nat → UInt8 → Term} :
    I.Satisfies (data.toList.mapIdx fun i b => .assert (t i b)) ↔
      ∀ i < data.size, I.Holds (t i (Bytes.get data i)) := by
  rw [mapIdx_bytes, Interpretation.satisfies_map_assert]
  simp only [List.mem_range]

/-! ## Arrays of bytes -/

theorem holds_byte {I : Interpretation} {a : Term} {n : Nat} {cells : BitVec n → BitVec 8}
    (ha : I.denote a = .array n 8 cells) (i : Nat) (b : UInt8) :
    I.Holds (.eq (.select a (.word n i)) (.word 8 b.toNat)) ↔ cells (.ofNat n i) = b.toBitVec := by
  rw [Interpretation.holds_eq_bits (Interpretation.denote_select ha (I.denote_word n i))
    (I.denote_word 8 b.toNat), BitVec.ofNat_uInt8ToNat]

/-! ## Blocks -/

theorem ram_powerOn_means : Ram.powerOn.Says (fun (_ : Unit) _ => True)
    (fun _ _ e' => ∃ m, e' Wire.ram.name = .array 11 8 m) := by
  refine ⟨fun _ _ => rfl, fun ρ ω => ⟨_, rfl, fun _ I fits _ => ?_⟩⟩
  have hout : Binding.symbol (.of ([.ram].map Wire.name) ω) Wire.ram.name = ω Wire.ram.name :=
    symbol_write _ _ (by simp)
  have hkind : (I (Binding.symbol (.of ([.ram].map Wire.name) ω) Wire.ram.name).name).kind =
      .array 11 8 :=
    declared_array 11 8 fits (by decide) (by decide) (List.mem_cons_of_mem _ List.mem_cons_self)
  rw [hout] at hkind
  simp only [Interpretation.satisfies_note, Ram.declareMemory,
    Interpretation.satisfies_declareArray, Interpretation.satisfies_nil, true_iff]
  exact Meaning.exists_array_of_kind hkind

/-- Bytes that fit are pinned from address zero on. -/
theorem exists_contents {data : ByteArray} (hsize : data.size ≤ ramSize) :
    ∃ b, Ram.contents 0 data = .ok b ∧ b.reads = [Wire.ram.name] ∧ b.writes = [] ∧
      b.Says (fun m e => e Wire.ram.name = .array 11 8 m)
        (fun m _ _ => ∀ i < data.size, m (.ofNat 11 i) = (Bytes.get data i).toBitVec) := by
  unfold Ram.contents
  rw [if_neg (by omega)]
  refine ⟨_, rfl, rfl, rfl, fun _ _ => rfl, fun ρ ω => ⟨_, rfl, fun m I fits h => ?_⟩⟩
  have hram := (denote_read [.ram] .ram (by simp)).trans h
  rw [Interpretation.satisfies_note, satisfies_bytes]
  refine forall₂_congr fun i _ => ?_
  rw [Nat.zero_add]
  exact holds_byte hram i _

theorem initialiser_means {m : Cartridge.Mapper} {rom : Cartridge.Rom} (hm : MapsTo m rom) :
    m.initialiser.Says (fun (_ : Unit) _ => True)
      (fun _ _ e' => e' Wire.prg.name = content rom) := by
  refine ⟨fun _ _ => rfl, fun ρ ω => ⟨_, rfl, fun _ I fits _ => ?_⟩⟩
  let prg := Binding.symbol (.of ([.prg].map Wire.name) ω) Wire.prg.name
  have hout : prg = ω Wire.prg.name := symbol_write _ _ (by simp)
  have hle := hm.le
  have hkind : (I prg.name).kind = .array m.addressBits 8 :=
    declared_array m.addressBits 8 fits (by omega) (by decide)
      (List.mem_cons_of_mem _ List.mem_cons_self)
  obtain ⟨cells, hcells⟩ := Meaning.exists_array_of_kind hkind
  rw [Interpretation.satisfies_note, Interpretation.satisfies_declareArray, satisfies_bytes,
    hm.source]
  have hall : (∀ i < rom.prg.size,
      cells (.ofNat m.addressBits i) = (Bytes.get rom.prg i).toBitVec) ↔
        cells = fun i => (Bytes.get rom.prg i.toNat).toBitVec := by
    rw [funext_iff, hm.size]
    constructor
    · intro h x
      have hx := h x.toNat x.isLt
      rwa [BitVec.ofNat_toNat, BitVec.setWidth_eq] at hx
    · intro h i hi
      rw [h, BitVec.toNat_ofNat, Nat.mod_eq_of_lt hi]
  have hbyte := fun i => holds_byte (a := .symbol prg) hcells i (Bytes.get rom.prg i)
  have hsame : I prg.name = content rom ↔
      cells = fun i => (Bytes.get rom.prg i.toNat).toBitVec := by
    rw [hcells, content, ← hm.addressBits]
    simp
  change (∀ i < rom.prg.size, I.Holds (.eq (.select (.symbol prg) _) _)) ↔ _
  simp only [hbyte]
  rw [hall, ← hsame, hout]

end CycleCheck.Cycle
