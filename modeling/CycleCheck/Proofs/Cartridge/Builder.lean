import CycleCheck.Proofs.Scenario.Image
import Mathlib.Data.List.Induction
import Mathlib.Data.Nat.ModEq

/-!
Builders of ROMs. A builder puts a byte at the offset of its address modulo the size, so a byte may
be replaced through another address. What it holds in the end is told by the bytes that were
written since the content was replaced as a whole.
-/

namespace CycleCheck.Cartridge

open Memory

/-! ## What was written -/

/-- Bytes with their addresses, from an address on. -/
def addressed : Nat → List UInt8 → List (Nat × UInt8)
  | _, [] => []
  | address, v :: rest => (address, v) :: addressed (address + 1) rest

namespace BuilderStep

/-- The content that a step puts in the place of all there was. -/
def content? : BuilderStep → Option ByteArray
  | .prg data => some data
  | .banks n => some (Bytes.zeros (n.toNat * bankSize))
  | _ => none

/-- The bytes that a step writes. -/
def bytes : BuilderStep → List (Nat × UInt8)
  | .write address data => addressed address.toNat data
  | .vector address v => addressed address.toNat [v.toUInt8, (v >>> 8).toUInt8]
  | _ => []

end BuilderStep

/-- The content that was put in place last, and the bytes that were written since, in order. -/
structure History where
  base : ByteArray
  written : List (Nat × UInt8)

namespace History

def add (h : History) (s : BuilderStep) : History :=
  match s.content? with
  | some data => ⟨data, []⟩
  | none => ⟨h.base, h.written ++ s.bytes⟩

/-- The history of steps from the beginning, which is a bank of zeros. -/
def of (steps : List BuilderStep) : History := steps.foldl add ⟨Bytes.zeros bankSize, []⟩

/-- The last byte that was written to an address or to a mirror of it. -/
def last? (size address : Nat) (written : List (Nat × UInt8)) : Option UInt8 :=
  ((written.filter fun w => w.1 % size = address % size).getLast?).map Prod.snd

/-- The byte at an address. -/
def byte (h : History) (size address : Nat) : UInt8 :=
  (last? size address h.written).getD
    (Bytes.get h.base ((address - originCartridge) % size))

theorem last?_nil (size address : Nat) : last? size address [] = none := rfl

theorem last?_append (size address : Nat) (ws ws' : List (Nat × UInt8)) :
    last? size address (ws ++ ws') = (last? size address ws').or (last? size address ws) := by
  rw [last?, List.filter_append, List.getLast?_append, Option.map_or]
  rfl

theorem last?_singleton (size address a : Nat) (v : UInt8) :
    last? size address [(a, v)] = if a % size = address % size then some v else none := by
  by_cases h : a % size = address % size <;> simp [last?, h]

theorem last?_cons (size address a : Nat) (v : UInt8) (ws : List (Nat × UInt8)) :
    last? size address ((a, v) :: ws) = (last? size address ws).or
      (if a % size = address % size then some v else none) := by
  rw [← List.singleton_append, last?_append, last?_singleton]

end History

namespace Builder

/-- The builder after steps from the beginning. -/
def after (steps : List BuilderStep) : Builder := steps.foldl perform {}

theorem after_concat (steps : List BuilderStep) (s : BuilderStep) :
    after (steps ++ [s]) = (after steps).perform s := by
  rw [after, List.foldl_append]
  rfl

variable {b : Builder}

/-! ## Errors -/

theorem build_eq_error_iff {e : BuildError} : b.build = .error e ↔ b.error = some e := by
  unfold build
  cases b.error <;> simp

theorem build_eq_ok_iff {rom : Rom} : b.build = .ok rom ↔ b.error = none ∧ b.rom = rom := by
  unfold build
  cases b.error <;> simp

theorem error_step {e : BuildError} (h : b.error = some e) (f : Rom → Except BuildError Rom) :
    (b.step f).error = some e := by
  rw [step, h]
  exact h

theorem error_perform {e : BuildError} (h : b.error = some e) (s : BuilderStep) :
    (b.perform s).error = some e := by
  cases s with
  | name s => exact h
  | mapper | prg | banks | write | vector => exact error_step h _

/-- The first error stays. -/
theorem error_after {e : BuildError} {steps : List BuilderStep} (h : (after steps).error = some e)
    (more : List BuilderStep) : (after (steps ++ more)).error = some e := by
  induction more using List.reverseRecOn with
  | nil => rwa [List.append_nil]
  | append_singleton more s ih =>
    rw [← List.append_assoc, after_concat]
    exact error_perform ih s

theorem error_none_of_append {steps more : List BuilderStep}
    (h : (after (steps ++ more)).error = none) : (after steps).error = none := by
  rw [Option.eq_none_iff_forall_ne_some]
  intro e he
  simp [error_after he more] at h

/-- A step without an error. -/
theorem step_of_error_none {f : Rom → Except BuildError Rom} (h : (b.step f).error = none) :
    ∃ rom, f b.rom = .ok rom ∧ b.step f = { b with rom } := by
  unfold step at h ⊢
  split at h
  · next e he => exact absurd (he.symm.trans h) (by simp)
  · next he =>
    split at h
    · next rom hrom => exact ⟨rom, hrom, by simp [he]⟩
    · cases h

/-! ## Sizes -/

/-- A positive number of banks. -/
def Sized (prg : ByteArray) : Prop := 0 < prg.size ∧ bankSize ∣ prg.size

/-- The number of bytes does not overflow. -/
theorem banksSize_eq {n : Int} (hpos : 0 < n) (hlt : n < 2 ^ 49) :
    banksSize n = n.toNat * bankSize := by
  have hn : (Int64.ofInt n).toInt = n := by
    rw [Int64.toInt_ofInt_of_le] <;> omega
  have hbank : (16384 : Int64).toInt = 16384 := by decide
  rw [banksSize, Int64.toNatClampNeg, Int64.toInt_mul, hn, hbank,
    Int.bmod_eq_of_le (by omega) (by omega), bankSize]
  omega

theorem sized_step {f : Rom → Except BuildError Rom} (h : Sized b.rom.prg)
    (hf : ∀ rom, f b.rom = .ok rom → Sized rom.prg) : Sized (b.step f).rom.prg := by
  unfold step
  split
  · exact h
  · split
    · next rom hrom => exact hf rom hrom
    · exact h

/-- What a write makes of the content. -/
theorem poke_of_write {address : Nat} {data : List UInt8} {rom rom' : Rom}
    (h : (do
      let prg ← poke address data rom.prg
      pure { rom with prg }) = .ok rom') :
    ∃ prg, poke address data rom.prg = .ok prg ∧ rom' = { rom with prg } := by
  obtain ⟨prg, hprg, h⟩ := Propagation.exists_ok_of_bind h
  exact ⟨prg, hprg, (Except.ok.inj h).symm⟩

/-- The offsets of addresses are the same exactly if the addresses are mirrors. -/
theorem offset_eq_iff (size : Nat) {a b : Nat} (ha : originCartridge ≤ a)
    (hb : originCartridge ≤ b) :
    (a - originCartridge) % size = (b - originCartridge) % size ↔ a % size = b % size := by
  conv_rhs => rw [← Nat.sub_add_cancel ha, ← Nat.sub_add_cancel hb]
  exact ⟨fun h => Nat.ModEq.add_right _ h, fun h => Nat.ModEq.add_right_cancel' _ h⟩

/-- A byte is found where it or a later one was put, at any mirror of its address. -/
theorem get_of_poke {address : Nat} {data : List UInt8} {prg prg' : ByteArray}
    (h : poke address data prg = .ok prg') : prg'.size = prg.size ∧
      ∀ a, 0 < prg.size → originCartridge ≤ a →
        Bytes.get prg' ((a - originCartridge) % prg.size) =
          (History.last? prg.size a (addressed address data)).getD
            (Bytes.get prg ((a - originCartridge) % prg.size)) := by
  induction data generalizing address prg with
  | nil =>
    cases h
    exact ⟨rfl, fun a _ _ => by rw [addressed, History.last?_nil, Option.getD_none]⟩
  | cons v rest ih =>
    rw [poke] at h
    split_ifs at h with hinside
    obtain ⟨hsize, hbytes⟩ := ih h
    rw [Bytes.size_put] at hsize hbytes
    refine ⟨hsize, fun a hpos ha => ?_⟩
    have haddress : originCartridge ≤ address := by
      simp only [Bool.or_eq_true, decide_eq_true_eq, not_or] at hinside
      omega
    have hoffset := offset_eq_iff prg.size haddress ha
    rw [hbytes a hpos ha, addressed, History.last?_cons, Option.getD_or]
    congr 1
    by_cases h : address % prg.size = a % prg.size
    · rw [Bytes.get_put, if_pos ⟨hoffset.2 h, Nat.mod_lt _ hpos⟩, if_pos h, Option.getD_some]
    · rw [Bytes.get_put, if_neg fun hput => h (hoffset.1 hput.1), if_neg h, Option.getD_none]

theorem sized_perform (h : Sized b.rom.prg) {s : BuilderStep}
    (hs : ∀ n, s = .banks n → n < 2 ^ 49) : Sized (b.perform s).rom.prg := by
  have hwrite : ∀ address data, Sized (b.write address data).rom.prg := by
    refine fun address data => sized_step h fun rom hrom => ?_
    obtain ⟨prg, hpoke, rfl⟩ := poke_of_write hrom
    rw [Sized, (get_of_poke hpoke).1]
    exact h
  cases s with
  | name s => exact h
  | mapper n =>
    refine sized_step h fun rom hrom => ?_
    split_ifs at hrom
    cases hrom
    exact h
  | prg data =>
    refine sized_step h fun rom hrom => ?_
    split_ifs at hrom with hbad
    cases hrom
    simp only [Bool.or_eq_true, decide_eq_true_eq, not_or, not_not] at hbad
    exact ⟨Nat.pos_of_ne_zero hbad.1, Nat.dvd_of_mod_eq_zero hbad.2⟩
  | banks n =>
    refine sized_step h fun rom hrom => ?_
    split_ifs at hrom with hn
    cases hrom
    have hpos : 0 < n := by omega
    have hsize : (Bytes.zeros (banksSize n)).size = n.toNat * bankSize := by
      rw [Bytes.size_zeros, banksSize_eq hpos (hs n rfl)]
    rw [Sized, hsize]
    exact ⟨Nat.mul_pos (by omega) (by decide), Nat.dvd_mul_left ..⟩
  | write address data => exact hwrite address.toNat data
  | vector address v => exact hwrite address.toNat _

theorem sized_after {steps : List BuilderStep} (h : ∀ n, BuilderStep.banks n ∈ steps → n < 2 ^ 49) :
    Sized (after steps).rom.prg := by
  induction steps using List.reverseRecOn with
  | nil => exact ⟨by simp [after, bankSize], by simp [after, bankSize]⟩
  | append_singleton steps s ih =>
    rw [after_concat]
    refine sized_perform (ih fun n hn => h n (List.mem_append_left _ hn)) fun n hn => h n ?_
    simp [hn]

/-! ## Content -/

/-- A builder holds what its history tells. -/
structure Holds (h : History) (b : Builder) : Prop where
  size : b.rom.prg.size = h.base.size
  byte : ∀ a, originCartridge ≤ a →
    Bytes.get b.rom.prg ((a - originCartridge) % b.rom.prg.size) = h.byte b.rom.prg.size a

variable {h : History}

theorem Holds.write (hb : Holds h b) (hpos : 0 < b.rom.prg.size) {address : Nat}
    {data : List UInt8} (hok : (b.write address data).error = none) :
    Holds ⟨h.base, h.written ++ addressed address data⟩ (b.write address data) := by
  obtain ⟨rom, hrom, hstep⟩ := step_of_error_none hok
  obtain ⟨prg, hpoke, rfl⟩ := poke_of_write hrom
  obtain ⟨hsize, hbytes⟩ := get_of_poke hpoke
  have hprg : (b.write address data).rom.prg = prg := by rw [Builder.write, hstep]
  refine ⟨by rw [hprg, hsize, hb.size], fun a ha => ?_⟩
  rw [hprg, hsize, hbytes a hpos ha, hb.byte a ha, History.byte, History.byte, History.last?_append,
    Option.getD_or]

/-- A step that replaces the content leaves nothing of what was written before. -/
theorem holds_replaced (data : ByteArray) (hdata : b.rom.prg = data) : Holds ⟨data, []⟩ b where
  size := by rw [hdata]
  byte a _ := by rw [hdata, History.byte, History.last?_nil, Option.getD_none]

/-- Only the bytes that a step writes are added, if it does not replace the content. -/
theorem Holds.kept (hb : Holds h b) {b' : Builder} (hsame : b'.rom.prg = b.rom.prg) :
    Holds ⟨h.base, h.written ++ []⟩ b' where
  size := by rw [hsame, hb.size]
  byte a ha := by rw [hsame, List.append_nil, hb.byte a ha]

theorem Holds.perform (hb : Holds h b) (hpos : 0 < b.rom.prg.size) {s : BuilderStep}
    (hs : ∀ n, s = .banks n → n < 2 ^ 49) (hok : (b.perform s).error = none) :
    Holds (h.add s) (b.perform s) := by
  cases s with
  | name s => exact hb.kept rfl
  | mapper n =>
    obtain ⟨rom, hrom, hstep⟩ := step_of_error_none hok
    split_ifs at hrom
    cases hrom
    exact hb.kept (by rw [Builder.perform, Builder.mapper, hstep])
  | prg data =>
    obtain ⟨rom, hrom, hstep⟩ := step_of_error_none hok
    split_ifs at hrom
    cases hrom
    exact holds_replaced data (by rw [Builder.perform, Builder.prg, hstep])
  | banks n =>
    obtain ⟨rom, hrom, hstep⟩ := step_of_error_none hok
    split_ifs at hrom with hn
    cases hrom
    refine holds_replaced _ ?_
    rw [Builder.perform, Builder.banks, hstep, banksSize_eq (by omega) (hs n rfl)]
  | write address data => exact hb.write hpos hok
  | vector address v => exact hb.write hpos hok

/-- A builder without an error holds what was written into it, by induction on the steps. -/
theorem holds_after {steps : List BuilderStep} (h : ∀ n, BuilderStep.banks n ∈ steps → n < 2 ^ 49)
    (hok : (after steps).error = none) : Holds (.of steps) (after steps) := by
  induction steps using List.reverseRecOn with
  | nil => exact holds_replaced _ rfl
  | append_singleton steps s ih =>
    have hbefore : ∀ n, BuilderStep.banks n ∈ steps → n < 2 ^ 49 :=
      fun n hn => h n (List.mem_append_left _ hn)
    have hnone := error_none_of_append hok
    rw [after_concat] at hok ⊢
    rw [History.of, List.foldl_append]
    refine (ih hbefore hnone).perform (sized_after hbefore).1 (fun n hn => h n ?_) hok
    simp [hn]

end Builder

end CycleCheck.Cartridge
