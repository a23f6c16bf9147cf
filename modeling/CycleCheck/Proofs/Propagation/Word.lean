import CycleCheck.Propagation.Eval
import Mathlib.Algebra.Group.Nat.Defs
import Mathlib.Tactic.Common

/-!
Words of at most 64 bits inside 64-bit words. A word of `n` bits is held by the 64-bit word of the
same number; every operation is done on 64 bits and cut to `n` bits afterwards, and the result
holds what the operation gives on `n` bits.
-/

namespace CycleCheck.Propagation

variable {n : Nat}

theorem ofNat_ge_iff (h : n ≤ 64) : Int64.ofNat n ≥ 64 ↔ n = 64 := by
  have h64 : (64 : Int64).toInt = 64 := rfl
  rw [ge_iff_le, Int64.le_iff_toInt_le, Int64.toInt_ofNat_of_lt (by omega), h64]
  omega

theorem toNat_ofNat (h : n ≤ 64) : (UInt64.ofNat n).toNat = n := by
  rw [UInt64.toNat_ofNat', Nat.mod_eq_of_lt (by omega)]

theorem toNat_mask (h : n ≤ 64) : (mask (Int64.ofNat n)).toNat = 2 ^ n - 1 := by
  unfold mask
  by_cases h64 : n = 64
  · rw [if_pos ((ofNat_ge_iff h).2 h64), h64]
    rfl
  · have hlt : n < 64 := by omega
    have hpow : 2 ^ n < 2 ^ 64 := Nat.pow_lt_pow_right (by omega) hlt
    have hone : 1 ≤ 2 ^ n := Nat.one_le_two_pow
    have hshift : (1 <<< UInt64.ofNat n : UInt64).toNat = 2 ^ n := by
      rw [UInt64.toNat_shiftLeft, toNat_ofNat h, Nat.mod_eq_of_lt hlt, UInt64.toNat_one,
        Nat.one_shiftLeft, Nat.mod_eq_of_lt hpow]
    rw [if_neg (fun hge => h64 ((ofNat_ge_iff h).1 hge)), Int64.toUInt64_ofNat', shiftLeft,
      if_pos (by rw [UInt64.lt_iff_toNat_lt, toNat_ofNat h]; exact hlt),
      UInt64.toNat_sub_of_le _ _ (by rw [UInt64.le_iff_toNat_le, hshift]; exact hone), hshift]
    rfl

/-- Cutting to `n` bits is the remainder modulo `2 ^ n`. -/
theorem toNat_cut (h : n ≤ 64) (v : UInt64) :
    (v &&& mask (Int64.ofNat n)).toNat = v.toNat % 2 ^ n := by
  rw [UInt64.toNat_and, toNat_mask h, Nat.and_two_pow_sub_one_eq_mod]

theorem mod_of_mod_size (h : n ≤ 64) (k : Nat) : k % 2 ^ 64 % 2 ^ n = k % 2 ^ n :=
  Nat.mod_mod_of_dvd k (Nat.pow_dvd_pow 2 h)

theorem exists_size_eq (h : n ≤ 64) : ∃ c, 2 ^ 64 = 2 ^ n + 2 ^ n * c := by
  refine ⟨2 ^ (64 - n) - 1, ?_⟩
  have hpos : 1 ≤ 2 ^ (64 - n) := Nat.one_le_two_pow
  have hsize : 2 ^ 64 = 2 ^ n * 2 ^ (64 - n) := by rw [← Nat.pow_add]; congr 1; omega
  rw [Nat.mul_sub, Nat.mul_one, hsize]
  exact (Nat.add_sub_of_le (Nat.le_mul_of_pos_right _ hpos)).symm

theorem toNat_shiftLeft {x y : UInt64} (h : y.toNat < 64) :
    (shiftLeft x y).toNat = x.toNat <<< y.toNat % 2 ^ 64 := by
  rw [shiftLeft, if_pos (UInt64.lt_iff_toNat_lt.2 h), UInt64.toNat_shiftLeft, Nat.mod_eq_of_lt h]

theorem toNat_shiftRight {x y : UInt64} (h : y.toNat < 64) :
    (shiftRight x y).toNat = x.toNat >>> y.toNat := by
  rw [shiftRight, if_pos (UInt64.lt_iff_toNat_lt.2 h), UInt64.toNat_shiftRight, Nat.mod_eq_of_lt h]

section Operations

variable {x y : UInt64} {a b : BitVec n}

theorem toNat_add_cut (h : n ≤ 64) (hx : x.toNat = a.toNat) (hy : y.toNat = b.toNat) :
    ((x + y) &&& mask (Int64.ofNat n)).toNat = (a + b).toNat := by
  rw [toNat_cut h, UInt64.toNat_add, mod_of_mod_size h, BitVec.toNat_add, hx, hy]

theorem toNat_sub_cut (h : n ≤ 64) (hx : x.toNat = a.toNat) (hy : y.toNat = b.toNat) :
    ((x - y) &&& mask (Int64.ofNat n)).toNat = (a - b).toNat := by
  have hb := b.isLt
  obtain ⟨c, hc⟩ := exists_size_eq h
  rw [toNat_cut h, UInt64.toNat_sub, mod_of_mod_size h, BitVec.toNat_sub, hx, hy]
  -- the two borrows differ by a multiple of `2 ^ n`
  have hsplit : 2 ^ 64 - b.toNat + a.toNat = (2 ^ n - b.toNat + a.toNat) + 2 ^ n * c := by omega
  rw [hsplit, Nat.add_mul_mod_self_left]

theorem toNat_and_cut (h : n ≤ 64) (hx : x.toNat = a.toNat) (hy : y.toNat = b.toNat) :
    ((x &&& y) &&& mask (Int64.ofNat n)).toNat = (a &&& b).toNat := by
  rw [toNat_cut h, UInt64.toNat_and, hx, hy, ← BitVec.toNat_and]
  exact Nat.mod_eq_of_lt (a &&& b).isLt

theorem toNat_or_cut (h : n ≤ 64) (hx : x.toNat = a.toNat) (hy : y.toNat = b.toNat) :
    ((x ||| y) &&& mask (Int64.ofNat n)).toNat = (a ||| b).toNat := by
  rw [toNat_cut h, UInt64.toNat_or, hx, hy, ← BitVec.toNat_or]
  exact Nat.mod_eq_of_lt (a ||| b).isLt

theorem toNat_xor_cut (h : n ≤ 64) (hx : x.toNat = a.toNat) (hy : y.toNat = b.toNat) :
    ((x ^^^ y) &&& mask (Int64.ofNat n)).toNat = (a ^^^ b).toNat := by
  rw [toNat_cut h, UInt64.toNat_xor, hx, hy, ← BitVec.toNat_xor]
  exact Nat.mod_eq_of_lt (a ^^^ b).isLt

theorem toNat_not_cut (h : n ≤ 64) (hx : x.toNat = a.toNat) :
    (~~~x &&& mask (Int64.ofNat n)).toNat = (~~~a).toNat := by
  have ha := a.isLt
  have hsize : UInt64.size = 2 ^ 64 := rfl
  obtain ⟨c, hc⟩ := exists_size_eq h
  rw [toNat_cut h, UInt64.toNat_not, BitVec.toNat_not, hx, hsize]
  have hsplit : 2 ^ 64 - 1 - a.toNat = (2 ^ n - 1 - a.toNat) + 2 ^ n * c := by omega
  rw [hsplit, Nat.add_mul_mod_self_left, Nat.mod_eq_of_lt (by omega)]

theorem ge_width_iff (h : n ≤ 64) (hy : y.toNat = b.toNat) :
    y ≥ (Int64.ofNat n).toUInt64 ↔ n ≤ b.toNat := by
  rw [Int64.toUInt64_ofNat', ge_iff_le, UInt64.le_iff_toNat_le, toNat_ofNat h, hy]

theorem toNat_shl_cut (h : n ≤ 64) (hx : x.toNat = a.toNat) (hy : y.toNat = b.toNat)
    (hlt : b.toNat < n) :
    (shiftLeft x y &&& mask (Int64.ofNat n)).toNat = (a <<< b).toNat := by
  rw [toNat_cut h, toNat_shiftLeft (by omega), mod_of_mod_size h, hx, hy]
  exact BitVec.toNat_shiftLeft.symm

theorem shl_eq_zero (hle : n ≤ b.toNat) : a <<< b = 0#n := by
  rw [BitVec.shiftLeft_eq', BitVec.shiftLeft_eq_zero hle]

theorem toNat_lshr_cut (h : n ≤ 64) (hx : x.toNat = a.toNat) (hy : y.toNat = b.toNat)
    (hlt : b.toNat < n) :
    (shiftRight x y &&& mask (Int64.ofNat n)).toNat = (a >>> b).toNat := by
  rw [toNat_cut h, toNat_shiftRight (by omega), hx, hy]
  have hval : (a >>> b).toNat = a.toNat >>> b.toNat := BitVec.toNat_ushiftRight a b.toNat
  rw [← hval]
  exact Nat.mod_eq_of_lt (a >>> b).isLt

theorem lshr_eq_zero (hle : n ≤ b.toNat) : a >>> b = 0#n := by
  rw [BitVec.ushiftRight_eq', BitVec.ushiftRight_eq_zero hle]

end Operations

theorem toNat_concat_cut {v w : Nat} {x y : UInt64} {a : BitVec v} {b : BitVec w}
    (h : v + w ≤ 64) (hx : x.toNat = a.toNat) (hy : y.toNat = b.toNat) :
    ((shiftLeft x (Int64.ofNat w).toUInt64 ||| y) &&& mask (Int64.ofNat (v + w))).toNat =
      (a ++ b).toNat := by
  have hw : (Int64.ofNat w).toUInt64.toNat = w := by
    rw [Int64.toUInt64_ofNat', toNat_ofNat (by omega)]
  have hbound : a.toNat <<< w < 2 ^ 64 := by
    rw [Nat.shiftLeft_eq]
    calc a.toNat * 2 ^ w < 2 ^ v * 2 ^ w := Nat.mul_lt_mul_of_pos_right a.isLt (Nat.two_pow_pos w)
      _ = 2 ^ (v + w) := (Nat.pow_add 2 v w).symm
      _ ≤ 2 ^ 64 := Nat.pow_le_pow_right (by omega) h
  have hshift : (shiftLeft x (Int64.ofNat w).toUInt64).toNat = a.toNat <<< w := by
    by_cases hlt : w < 64
    · rw [toNat_shiftLeft (by omega), hw, hx, Nat.mod_eq_of_lt hbound]
    · -- all 64 bits belong to the right part, and the left part has none
      have hv : v = 0 := by omega
      subst hv
      rw [shiftLeft, if_neg (by rw [UInt64.lt_iff_toNat_lt, hw]; exact hlt)]
      simp [BitVec.toNat_of_zero_length]
  rw [toNat_cut h, UInt64.toNat_or, hshift, hy, ← BitVec.toNat_append]
  exact Nat.mod_eq_of_lt (a ++ b).isLt

theorem toNat_extract_cut {len lo : Nat} {x y : UInt64} {a : BitVec n} (h : n ≤ 64)
    (inside : lo + len ≤ n) (hpos : 0 < len) (hx : x.toNat = a.toNat) (hy : y.toNat = lo) :
    (shiftRight x y &&& mask (Int64.ofNat len)).toNat = (a.extractLsb' lo len).toNat := by
  rw [toNat_cut (by omega), toNat_shiftRight (by omega), hx, hy, BitVec.extractLsb'_toNat]

theorem toNat_extend_cut {k : Nat} {x : UInt64} {a : BitVec n} (h : n + k ≤ 64)
    (hx : x.toNat = a.toNat) :
    (x &&& mask (Int64.ofNat (n + k))).toNat = (a.setWidth (n + k)).toNat := by
  rw [toNat_cut h, BitVec.toNat_setWidth, hx]

end CycleCheck.Propagation
