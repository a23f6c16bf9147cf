import CycleCheck.Proofs.Cycle.Contents
import CycleCheck.Text.Bytes

/-!
Bytes of texts. The characters that are read from the bytes of a text are the characters of the
text: each of them is read whole, whatever follows it.
-/

namespace CycleCheck.Text

/-! ## Bytes of a character -/

theorem toList_toByteArray (bytes : List UInt8) : bytes.toByteArray.toList = bytes := by
  rw [Cycle.toList_eq]
  refine List.ext_getElem (by simp) fun i hi hi' => ?_
  rw [List.getElem_map, List.getElem_range, Bytes.get, dif_pos (by simpa using hi')]
  exact List.getElem_toByteArray

theorem toList_toUTF8_toString (c : Char) :
    c.toString.toUTF8.toList = String.utf8EncodeChar c := by
  rw [String.toUTF8_eq_toByteArray]
  simp [List.utf8Encode, toList_toByteArray]

theorem inRange_eq_true {b low high : UInt8} (hlow : low.toNat ≤ b.toNat)
    (hhigh : b.toNat ≤ high.toNat) : inRange b low high = true := by
  simp [inRange, UInt8.le_iff_toNat_le, hlow, hhigh]

theorem inRange_eq_false {b low high : UInt8} (hhigh : high.toNat < b.toNat) :
    inRange b low high = false := by
  simp [inRange, UInt8.le_iff_toNat_le, hhigh]

/-- The numbers between the two ranges of characters stand for none. -/
theorem not_surrogate (c : Char) : ¬ (0xd800 ≤ c.toNat ∧ c.toNat ≤ 0xdfff) := by
  have hvalid := c.valid
  unfold UInt32.isValidChar Nat.isValidChar at hvalid
  change _ ∨ _ at hvalid
  simp only [Char.toNat] at *
  omega

theorem toNat_lt_size (c : Char) : c.toNat < 0x110000 := by
  have hvalid := c.valid
  unfold UInt32.isValidChar Nat.isValidChar at hvalid
  simp only [Char.toNat] at *
  omega

variable {a b c d : UInt8} {rest : List UInt8}

theorem firstChar_one (ha : a.toNat < 0x80) :
    firstChar (a :: rest) = (Char.ofNat a.toNat, 1) := if_pos (UInt8.lt_iff_toNat_lt.2 ha)

theorem not_ascii (ha : 0x80 ≤ a.toNat) : ¬ a < 0x80 := fun h =>
  absurd (UInt8.lt_iff_toNat_lt.1 h) (Nat.not_lt.2 ha)

theorem inRange_next (hb : 0x80 ≤ b.toNat ∧ b.toNat ≤ 0xbf) : inRange b 0x80 0xbf = true :=
  inRange_eq_true hb.1 hb.2

/-- The byte after the first one has bounds of its own for two values of the first one. -/
theorem inRange_second {low high : UInt8} {p q : UInt8}
    (hlow : a.toNat = p.toNat → low.toNat ≤ b.toNat)
    (hhigh : a.toNat = q.toNat → b.toNat ≤ high.toNat) (hb : 0x80 ≤ b.toNat ∧ b.toNat ≤ 0xbf) :
    inRange b (if a = p then low else 0x80) (if a = q then high else 0xbf) = true := by
  refine inRange_eq_true ?_ ?_
  · split_ifs with h
    · exact hlow (congrArg _ h)
    · exact hb.1
  · split_ifs with h
    · exact hhigh (congrArg _ h)
    · exact hb.2

theorem firstChar_two (ha : 0xc2 ≤ a.toNat ∧ a.toNat ≤ 0xdf)
    (hb : 0x80 ≤ b.toNat ∧ b.toNat ≤ 0xbf) : firstChar (a :: b :: rest) =
      (Char.ofNat ((a.toNat - 0xc0) * 64 + (b.toNat - 0x80)), 2) := by
  have hfirst : inRange a 0xc2 0xdf = true := inRange_eq_true ha.1 ha.2
  refine (if_neg (not_ascii (Nat.le_trans (by decide) ha.1))).trans (if_pos ?_)
  rw [hfirst, inRange_next hb]
  rfl

theorem firstChar_three (ha : 0xe0 ≤ a.toNat ∧ a.toNat ≤ 0xef)
    (hlow : a.toNat = 0xe0 → 0xa0 ≤ b.toNat) (hhigh : a.toNat = 0xed → b.toNat ≤ 0x9f)
    (hb : 0x80 ≤ b.toNat ∧ b.toNat ≤ 0xbf) (hc : 0x80 ≤ c.toNat ∧ c.toNat ≤ 0xbf) :
    firstChar (a :: b :: c :: rest) =
      (Char.ofNat ((a.toNat - 0xe0) * 4096 + (b.toNat - 0x80) * 64 + (c.toNat - 0x80)), 3) := by
  have htwo : inRange a 0xc2 0xdf = false := inRange_eq_false (Nat.lt_of_lt_of_le (by decide) ha.1)
  have hfirst : inRange a 0xe0 0xef = true := inRange_eq_true ha.1 ha.2
  refine (if_neg (not_ascii (Nat.le_trans (by decide) ha.1))).trans
    ((if_neg (by rw [htwo]; simp)).trans (if_pos ?_))
  rw [hfirst, inRange_second hlow hhigh hb, inRange_next hc]
  rfl

theorem firstChar_four (ha : 0xf0 ≤ a.toNat ∧ a.toNat ≤ 0xf4)
    (hlow : a.toNat = 0xf0 → 0x90 ≤ b.toNat) (hhigh : a.toNat = 0xf4 → b.toNat ≤ 0x8f)
    (hb : 0x80 ≤ b.toNat ∧ b.toNat ≤ 0xbf) (hc : 0x80 ≤ c.toNat ∧ c.toNat ≤ 0xbf)
    (hd : 0x80 ≤ d.toNat ∧ d.toNat ≤ 0xbf) :
    firstChar (a :: b :: c :: d :: rest) =
      (Char.ofNat ((a.toNat - 0xf0) * 262144 + (b.toNat - 0x80) * 4096 + (c.toNat - 0x80) * 64 +
        (d.toNat - 0x80)), 4) := by
  have htwo : inRange a 0xc2 0xdf = false := inRange_eq_false (Nat.lt_of_lt_of_le (by decide) ha.1)
  have hthree : inRange a 0xe0 0xef = false :=
    inRange_eq_false (Nat.lt_of_lt_of_le (by decide) ha.1)
  have hfirst : inRange a 0xf0 0xf4 = true := inRange_eq_true ha.1 ha.2
  refine (if_neg (not_ascii (Nat.le_trans (by decide) ha.1))).trans
    ((if_neg (by rw [htwo]; simp)).trans ((if_neg (by rw [hthree]; simp)).trans (if_pos ?_)))
  rw [hfirst, inRange_second hlow hhigh hb, inRange_next hc, inRange_next hd]
  rfl

theorem toNat_ofNat_of_lt {n : Nat} (h : n < 256) : (UInt8.ofNat n).toNat = n :=
  Nat.mod_eq_of_lt h

/-- The bytes of a character are read as the character. There is a case for each length. -/
theorem firstChar_utf8 (c : Char) (rest : List UInt8) :
    firstChar (String.utf8EncodeChar c ++ rest) = (c, (String.utf8EncodeChar c).length) := by
  have hsurrogate := not_surrogate c
  have hlt := toNat_lt_size c
  have hread {n : Nat} (h : n = c.toNat) : Char.ofNat n = c := h ▸ c.ofNat_toNat
  rw [String.utf8EncodeChar, show c.val.toNat = c.toNat from rfl]
  generalize c.toNat = n at *
  split_ifs with hone htwo hthree
  · have ha : (UInt8.ofNat n).toNat = n := toNat_ofNat_of_lt (by omega)
    rw [List.singleton_append, firstChar_one (by omega), hread ha]
    rfl
  · have ha : (UInt8.ofNat (n / 64 % 32 + 192)).toNat = n / 64 + 192 := by
      rw [toNat_ofNat_of_lt] <;> omega
    have hb : (UInt8.ofNat (n % 64 + 128)).toNat = n % 64 + 128 := toNat_ofNat_of_lt (by omega)
    rw [List.cons_append, List.singleton_append, firstChar_two, hread] <;> try omega
    rfl
  · have ha : (UInt8.ofNat (n / 4096 % 16 + 224)).toNat = n / 4096 + 224 := by
      rw [toNat_ofNat_of_lt] <;> omega
    have hb : (UInt8.ofNat (n / 64 % 64 + 128)).toNat = n / 64 % 64 + 128 :=
      toNat_ofNat_of_lt (by omega)
    have hc : (UInt8.ofNat (n % 64 + 128)).toNat = n % 64 + 128 := toNat_ofNat_of_lt (by omega)
    rw [List.cons_append, List.cons_append, List.singleton_append, firstChar_three, hread] <;>
      try omega
    rfl
  · have ha : (UInt8.ofNat (n / 262144 % 8 + 240)).toNat = n / 262144 + 240 := by
      rw [toNat_ofNat_of_lt] <;> omega
    have hb : (UInt8.ofNat (n / 4096 % 64 + 128)).toNat = n / 4096 % 64 + 128 :=
      toNat_ofNat_of_lt (by omega)
    have hc : (UInt8.ofNat (n / 64 % 64 + 128)).toNat = n / 64 % 64 + 128 :=
      toNat_ofNat_of_lt (by omega)
    have hd : (UInt8.ofNat (n % 64 + 128)).toNat = n % 64 + 128 := toNat_ofNat_of_lt (by omega)
    rw [List.cons_append, List.cons_append, List.cons_append, List.singleton_append,
      firstChar_four, hread] <;> try omega
    rfl

/-! ## Bytes of a text -/

theorem decodeFrom_eq (fuel : Nat) {bytes : List UInt8} (h : bytes ≠ []) :
    decodeFrom (fuel + 1) bytes =
      (firstChar bytes).1 :: decodeFrom fuel (bytes.drop (firstChar bytes).2) := by
  cases bytes with
  | nil => exact absurd rfl h
  | cons => rfl

/-- Characters are read one after another. -/
theorem decodeFrom_utf8 (cs : List Char) {fuel : Nat}
    (h : (cs.flatMap String.utf8EncodeChar).length ≤ fuel) :
    decodeFrom fuel (cs.flatMap String.utf8EncodeChar) = cs := by
  induction cs generalizing fuel with
  | nil => cases fuel <;> rfl
  | cons c rest ih =>
    have hpos : 0 < (String.utf8EncodeChar c).length :=
      String.length_utf8EncodeChar c ▸ c.utf8Size_pos
    rw [List.flatMap_cons, List.length_append] at h
    obtain ⟨fuel, rfl⟩ := Nat.exists_eq_add_one_of_ne_zero (n := fuel) (by omega)
    rw [List.flatMap_cons,
      decodeFrom_eq _ (by rw [← List.length_pos_iff, List.length_append]; omega),
      firstChar_utf8, List.drop_left, ih (by omega)]

/-- The text of the bytes of a text. -/
theorem decodeBytes_utf8 (cs : List Char) :
    decodeBytes (cs.flatMap String.utf8EncodeChar) = String.ofList cs :=
  congrArg String.ofList (decodeFrom_utf8 cs (Nat.le_refl _))

end CycleCheck.Text
