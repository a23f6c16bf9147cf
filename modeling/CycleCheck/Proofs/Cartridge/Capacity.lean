import CycleCheck.Proofs.Cartridge.Builder

/-!
The size of a content. As long as no number of banks reaches 2^49, the size is a positive number of
banks, and no step of a builder is stopped: an address has an offset, and the offset is inside the
content. From 2^49 banks on the size does not fit a signed word of 64 bits, and the product that is
taken for it is less.
-/

namespace CycleCheck.Cartridge.Builder

open Memory

variable {b : Builder} {prg : ByteArray}

/-! ## Bytes at addresses -/

theorem ok_bind {ε α β : Type} (a : α) (f : α → Except ε β) : (Except.ok a >>= f) = f a := rfl

theorem offset_eq {size : Nat} (hpos : 0 < size) (address : Nat) :
    offset size address = .ok ((address - originCartridge) % size) := by
  rw [offset, if_neg (Nat.pos_iff_ne_zero.1 hpos)]

theorem putAt_eq {i : Nat} (h : i < prg.size) (v : UInt8) :
    putAt prg i v = .ok (Bytes.put prg i v) := by
  rw [putAt, if_pos h]

/-- A content that is not empty has an offset inside it for every address. -/
theorem exists_offset {size : Nat} (hpos : 0 < size) (address : Nat) :
    ∃ i, offset size address = .ok i ∧ i < size :=
  ⟨_, offset_eq hpos address, Nat.mod_lt _ hpos⟩

theorem tryPoke_eq_ok {address : Nat} {data : List UInt8} (hpos : 0 < prg.size) :
    tryPoke address data prg = .ok (poke address data prg) := by
  induction data generalizing address prg with
  | nil => rw [tryPoke, poke]
  | cons v rest ih =>
    rw [tryPoke, poke]
    split_ifs with hinside
    · rfl
    · rw [offset_eq hpos, ok_bind, putAt_eq (Nat.mod_lt _ hpos), ok_bind,
        ih (by rwa [Bytes.size_put])]

theorem tryWrite_eq_ok (hpos : 0 < b.rom.prg.size) (address : Nat) (data : List UInt8) :
    b.tryWrite address data = .ok (b.write address data) := by
  rw [tryWrite, tryPoke_eq_ok hpos, ok_bind, write, step, step]
  rfl

/-! ## Numbers of banks -/

/-- The size of a number of banks is not less than nothing, up to 2^49 banks. -/
theorem not_negative {n : Int} (hpos : 0 < n) (hlt : n < 2 ^ 49) :
    ¬ Int64.ofInt n * 16384 < 0 := by
  have hn : (Int64.ofInt n).toInt = n := Int64.toInt_ofInt_of_le (by omega) (by omega)
  have hbank : (16384 : Int64).toInt = 16384 := by decide
  rw [Int64.lt_iff_toInt_lt, Int64.toInt_mul, hn, hbank, Int64.toInt_zero,
    Int.bmod_eq_of_le (by omega) (by omega)]
  omega

/-- Making banks is not stopped, and there is an error or exactly that number of banks. -/
def MakesBanks (b : Builder) (n : Int) : Prop :=
  ∃ b', b.attempt (.banks n) = .ok b' ∧
    (b'.error ≠ none ∨ (b'.rom.prg.size : Int) = n * bankSize)

theorem makesBanks_of_error {e : BuildError} (h : b.error = some e) (n : Int) :
    b.MakesBanks n := by
  refine ⟨b.perform (.banks n), ?_, .inl ?_⟩
  · rw [attempt, h]
    rfl
  · rw [error_perform h]
    simp

theorem banks_of_error_none (h : b.error = none) (n : Int) :
    b.banks n = if n ≤ 0 then { b with error := some (.invalidBanks n) }
      else { b with rom := { b.rom with prg := Bytes.zeros (banksSize n) } } := by
  rw [banks, step, h]
  by_cases hn : n ≤ 0 <;> simp [hn]

/-- A 64-bit number of banks is made exactly, or refused, if it is below 2^49. -/
theorem makesBanks_iff (h : b.error = none) {n : Int} (hn : n < 2 ^ 63) :
    b.MakesBanks n ↔ n < 2 ^ 49 := by
  have hattempt : b.attempt (.banks n) =
      if 0 < n ∧ Int64.ofInt n * 16384 < 0 then .error .negativeLength else .ok (b.banks n) := by
    rw [attempt, h]
    rfl
  rw [MakesBanks, hattempt, banks_of_error_none h]
  by_cases hpos : n ≤ 0
  · rw [if_neg (by omega), if_pos hpos]
    exact iff_of_true ⟨_, rfl, .inl (by simp)⟩ (by omega)
  · rw [if_neg hpos]
    constructor
    · -- the size that is taken is below 2^63
      rintro ⟨b', hb', herror | hsize⟩
      · split_ifs at hb'
        cases hb'
        exact absurd h herror
      · split_ifs at hb'
        cases hb'
        have hlt := Int64.toNatClampNeg_lt (Int64.ofInt n * 16384)
        rw [Bytes.size_zeros, banksSize, bankSize] at hsize
        omega
    · intro hlt
      refine ⟨_, if_neg fun hneg => not_negative (by omega) hlt hneg.2, .inr ?_⟩
      rw [Bytes.size_zeros, banksSize_eq (by omega) hlt, bankSize]
      omega

/-! ## Runs -/

/-- A step is done as it is without a check, if the content is not empty. -/
theorem attempt_eq_ok (hpos : 0 < b.rom.prg.size) {s : BuilderStep}
    (hs : ∀ n, s = .banks n → n < 2 ^ 49) : b.attempt s = .ok (b.perform s) := by
  unfold attempt
  split_ifs
  · rfl
  · cases s with
    | name | mapper | prg => rfl
    | banks n => exact if_neg fun hneg => not_negative hneg.1 (hs n rfl) hneg.2
    | write address data => exact tryWrite_eq_ok hpos _ _
    | vector address v => exact tryWrite_eq_ok hpos _ _

/-- Steps from the beginning, as long as nothing stops the program. -/
def attemptAll (steps : List BuilderStep) : Except Breakdown Builder := steps.foldlM attempt {}

/-- Without 2^49 banks no step is stopped, by induction on the steps: each of them finds a content
that is not empty. -/
theorem attemptAll_eq_ok {steps : List BuilderStep}
    (h : ∀ n, BuilderStep.banks n ∈ steps → n < 2 ^ 49) :
    attemptAll steps = .ok (after steps) := by
  induction steps using List.reverseRecOn with
  | nil => rfl
  | append_singleton steps s ih =>
    have hbefore : ∀ n, BuilderStep.banks n ∈ steps → n < 2 ^ 49 :=
      fun n hn => h n (List.mem_append_left _ hn)
    have hs : ∀ n, s = .banks n → n < 2 ^ 49 := fun n hn => h n (by simp [hn])
    rw [attemptAll, List.foldlM_append, ← attemptAll, ih hbefore, ok_bind, List.foldlM_cons,
      attempt_eq_ok (sized_after hbefore).1 hs, ok_bind, after_concat]
    rfl

/-- Builders whose numbers of banks are below 2^49 are never stopped: their content is a positive
number of banks, every address has an offset inside it, and of all 64-bit numbers exactly those
below 2^49 are refused or make that number of banks. -/
theorem runs_within_bounds {steps : List BuilderStep}
    (h : ∀ n, BuilderStep.banks n ∈ steps → n < 2 ^ 49) :
    attemptAll steps = .ok (after steps) ∧ Sized (after steps).rom.prg ∧
      (∀ address, ∃ i, offset (after steps).rom.prg.size address = .ok i ∧
        i < (after steps).rom.prg.size) ∧
      (∀ n : Int, n < 2 ^ 49 → (after steps).MakesBanks n) ∧
      ∀ n : Int, n < 2 ^ 63 → (after steps).error = none →
        ((after steps).MakesBanks n ↔ n < 2 ^ 49) := by
  have hsized := sized_after h
  refine ⟨attemptAll_eq_ok h, hsized, exists_offset hsized.1, fun n hn => ?_,
    fun n hn hnone => makesBanks_iff hnone hn⟩
  cases herror : (after steps).error with
  | none => exact (makesBanks_iff herror (by omega)).2 hn
  | some e => exact makesBanks_of_error herror n

/-- After three banks for another mapper, 2^49 - 1 banks can be made and 2^49 cannot. -/
theorem runs_within_bounds_three :
    let steps : List BuilderStep := [.banks 3, .mapper 4]
    (∀ n, BuilderStep.banks n ∈ steps → n < 2 ^ 49) ∧
      attemptAll steps = .ok (after steps) ∧ Sized (after steps).rom.prg ∧
      (after steps).MakesBanks (2 ^ 49 - 1) ∧ ¬ (after steps).MakesBanks (2 ^ 49) := by
  intro steps
  have hbanks : ∀ n, BuilderStep.banks n ∈ steps → n < 2 ^ 49 := by simp [steps]
  obtain ⟨hrun, hsized, -, hmade, hexact⟩ := runs_within_bounds hbanks
  exact ⟨hbanks, hrun, hsized, hmade _ (by decide),
    fun h => absurd ((hexact _ (by decide) rfl).1 h) (by decide)⟩

/-- From 2^49 banks on the product is another one: it is negative, or nothing, or one bank. A byte
has no offset in an empty content. -/
theorem banks_wrap : attemptAll [.banks (2 ^ 49)] = .error .negativeLength ∧
    ((after [.banks (2 ^ 50)]).error = none ∧ (after [.banks (2 ^ 50)]).rom.prg.size = 0) ∧
    attemptAll [.banks (2 ^ 50), .write 0x8000 [1]] = .error .divisionByZero ∧
    (after [.banks (2 ^ 50 + 1)]).error = none ∧
    (after [.banks (2 ^ 50 + 1)]).rom.prg.size = bankSize := by
  have hnothing : banksSize (2 ^ 50) = 0 := by decide
  have hone : banksSize (2 ^ 50 + 1) = bankSize := by decide
  refine ⟨?_, ⟨?_, ?_⟩, ?_, ?_, ?_⟩
  · rfl
  · rfl
  · change (Bytes.zeros (banksSize (2 ^ 50))).size = 0
    rw [hnothing]
    rfl
  · rfl
  · rfl
  · change (Bytes.zeros (banksSize (2 ^ 50 + 1))).size = bankSize
    rw [hone, Bytes.size_zeros]

end CycleCheck.Cartridge.Builder
