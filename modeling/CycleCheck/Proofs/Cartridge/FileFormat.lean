import CycleCheck.Cartridge.INes
import CycleCheck.Proofs.Cartridge.Builder
import CycleCheck.Proofs.Cycle.Contents
import Mathlib.Data.Nat.Bitwise

/-!
The iNES format. A file is read if its header has no problem and its banks are all there, whatever
follows them, and the ROM is the PRG banks as they stand in the file. Of the problems of a header
the first one in a fixed order is reported, and before missing banks. What is written in the format
is read back.
-/

namespace CycleCheck

namespace Bytes

theorem get_of_lt {data : ByteArray} {i : Nat} (h : i < data.size) : get data i = data[i] :=
  dif_pos h

theorem get_append_left {a : ByteArray} (b : ByteArray) {i : Nat} (h : i < a.size) :
    get (a ++ b) i = get a i := by
  rw [get_of_lt h, get_of_lt (by rw [ByteArray.size_append]; omega),
    ByteArray.getElem_append_left h]

theorem get_extract {data : ByteArray} {start stop i : Nat} (hi : start + i < stop)
    (hstop : stop ≤ data.size) : get (data.extract start stop) i = get data (start + i) := by
  rw [get_of_lt (by rw [ByteArray.size_extract]; omega), get_of_lt (by omega),
    ByteArray.getElem_extract]

theorem toList_extract {data : ByteArray} {start stop : Nat} (hstop : stop ≤ data.size) :
    (data.extract start stop).toList =
      (List.range (stop - start)).map fun i => get data (start + i) := by
  rw [Cycle.toList_eq, ByteArray.size_extract, Nat.min_eq_left hstop]
  refine List.map_congr_left fun i hi => get_extract ?_ hstop
  have := List.mem_range.1 hi
  omega

end Bytes

namespace Cartridge.INes

/-! ## Problems of a header -/

/-- Whether a file has a problem, told from the bytes of its header. -/
def HeaderProblem.affects (data : ByteArray) : HeaderProblem → Bool
  | .notINes => (List.range 4).map (Bytes.get data) ≠ magic
  | .laterFormat => Bytes.get data 7 &&& 0x0c = 0x08
  | .signed => (List.range 9).map (fun i => Bytes.get data (7 + i)) = diskDude
  | .reservedByte i => Bytes.get data i ≠ 0
  | .trainer => (Bytes.get data 6).toNat.testBit 2
  | .noPrg => Bytes.get data 4 = 0

open HeaderProblem

/-- The problems of a header in the order in which they are looked for. -/
def checks : List HeaderProblem :=
  [notINes, laterFormat, signed] ++ (List.range' 8 8).map reservedByte ++ [trainer, noPrg]

variable {data : ByteArray}

theorem toList_magic (h : headerSize ≤ data.size) :
    (data.extract 0 4).toList = (List.range 4).map (Bytes.get data) := by
  rw [Bytes.toList_extract (Nat.le_trans (by decide) h)]
  simp

theorem toList_signature (h : headerSize ≤ data.size) :
    (data.extract 7 headerSize).toList = (List.range 9).map fun i => Bytes.get data (7 + i) :=
  Bytes.toList_extract h

theorem and_four_eq_four_iff (b : UInt8) : b &&& 0x04 = 0x04 ↔ b.toNat.testBit 2 = true := by
  rw [← UInt8.toNat_inj, UInt8.toNat_and, show (4 : UInt8).toNat = 2 ^ 2 from rfl,
    Nat.and_two_pow]
  cases b.toNat.testBit 2 <;> decide

theorem find?_cons_ite (p : HeaderProblem → Bool) (why : HeaderProblem)
    (rest : List HeaderProblem) :
    (why :: rest).find? p = if p why = true then some why else rest.find? p := by
  rw [List.find?_cons]
  cases p why <;> rfl

theorem find?_reserved :
    ((List.range' 8 8).map reservedByte).find? (affects data) =
      (reservedByte? data).map reservedByte := by
  rw [List.find?_map]
  rfl

/-- What is reported about a header is the first problem that it has. -/
theorem headerProblem?_eq_find? (h : headerSize ≤ data.size) :
    headerProblem? data = checks.find? (affects data) := by
  rw [headerProblem?, toList_magic h, toList_signature h, checks, List.append_assoc]
  simp only [List.cons_append, List.nil_append, find?_cons_ite, List.find?_append, find?_reserved,
    affects, decide_eq_true_eq, and_four_eq_four_iff]
  cases reservedByte? data <;> rfl

/-! ## Files -/

/-- The size of the PRG banks. -/
def prgSize (data : ByteArray) : Nat := (Bytes.get data 4).toNat * bankSize

/-- The size of a file, with its header and the banks that the header counts. -/
def fileSize (data : ByteArray) : Nat :=
  headerSize + prgSize data + (Bytes.get data 5).toNat * chrBank

/-- What a file has to be like. -/
structure Accepted (data : ByteArray) : Prop where
  header : 16 ≤ data.size
  magic : [Bytes.get data 0, Bytes.get data 1, Bytes.get data 2, Bytes.get data 3] =
    [0x4e, 0x45, 0x53, 0x1a]
  format : Bytes.get data 7 &&& 0x0c ≠ 0x08
  reserved : ∀ i, 8 ≤ i → i ≤ 15 → Bytes.get data i = 0
  trainer : (Bytes.get data 6).toNat.testBit 2 = false
  banks : Bytes.get data 4 ≠ 0
  size : 16 + 16384 * (Bytes.get data 4).toNat + 8192 * (Bytes.get data 5).toNat ≤ data.size

theorem mem_checks_iff {why : HeaderProblem} : why ∈ checks ↔
    (why = notINes ∨ why = laterFormat ∨ why = signed) ∨
      (∃ i, (8 ≤ i ∧ i < 16) ∧ reservedByte i = why) ∨ why = trainer ∨ why = noPrg := by
  simp [checks, or_assoc]

theorem diskDude_eq : diskDude = [0x44, 0x69, 0x73, 0x6b, 0x44, 0x75, 0x64, 0x65, 0x21] := by
  rw [diskDude, Cycle.toList_eq]
  rfl

/-- The second letter of the signature stands in the first reserved byte. -/
theorem Accepted.not_signed (h : Accepted data) : affects data signed = false := by
  refine decide_eq_false fun hsigned => ?_
  rw [diskDude_eq] at hsigned
  have hletter : Bytes.get data 8 = 0x69 := Option.some.inj (congrArg (·[1]?) hsigned)
  rw [h.reserved 8 (by decide) (by decide)] at hletter
  exact absurd hletter (by decide)

theorem Accepted.forall_checks (h : Accepted data) :
    ∀ why ∈ checks, affects data why = false := by
  intro why hwhy
  obtain (rfl | rfl | rfl) | ⟨i, hi, rfl⟩ | rfl | rfl := mem_checks_iff.1 hwhy
  · exact decide_eq_false (not_not.2 h.magic)
  · exact decide_eq_false h.format
  · exact h.not_signed
  · exact decide_eq_false (not_not.2 (h.reserved i hi.1 (Nat.le_of_lt_succ hi.2)))
  · exact h.trainer
  · exact decide_eq_false h.banks

theorem accepted_iff : Accepted data ↔ headerSize ≤ data.size ∧
    (∀ why ∈ checks, affects data why = false) ∧ fileSize data ≤ data.size := by
  have hsize : fileSize data =
      16 + 16384 * (Bytes.get data 4).toNat + 8192 * (Bytes.get data 5).toNat := by
    simp only [fileSize, prgSize, headerSize, bankSize, chrBank, Nat.mul_comm]
  refine ⟨fun h => ⟨h.header, h.forall_checks, hsize ▸ h.size⟩, ?_⟩
  rintro ⟨header, hchecks, size⟩
  exact {
    header
    size := hsize ▸ size
    magic := not_not.1 (of_decide_eq_false (hchecks notINes (by decide)))
    format := of_decide_eq_false (hchecks laterFormat (by decide))
    reserved i hi hi' := not_not.1 (of_decide_eq_false (hchecks (reservedByte i)
      (mem_checks_iff.2 (.inr (.inl ⟨i, ⟨hi, Nat.lt_succ_of_le hi'⟩, rfl⟩)))))
    trainer := hchecks trainer (by decide)
    banks := of_decide_eq_false (hchecks noPrg (by decide)) }

/-! ## Reading -/

theorem build_step {b : Builder} {f : Rom → Except BuildError Rom} {rom : Rom}
    (hb : b.error = none) (hf : f b.rom = .ok rom) : b.step f = { b with rom } := by
  unfold Builder.step
  rw [hb]
  simp only [hf]

/-- A builder that is given a mapper number of a byte and whole banks gives the ROM. -/
theorem build_banks (name : String) {n : Nat} {prg : ByteArray} (hn : n < 256)
    (hpos : prg.size ≠ 0) (hbanks : prg.size % bankSize = 0) :
    (((({} : Builder).name name).mapper n).prg prg).build = .ok ⟨name, n, prg⟩ := by
  have hmapper : (({} : Builder).name name).mapper n = { rom := ⟨name, n, Bytes.zeros bankSize⟩ } :=
    build_step rfl (by simp [Builder.name]; omega)
  have hprg : ((({} : Builder).name name).mapper n).prg prg = { rom := ⟨name, n, prg⟩ } := by
    rw [hmapper]
    exact build_step rfl (by simp [hpos, hbanks])
  rw [hprg]
  rfl

theorem mapperOf_lt (data : ByteArray) : mapperOf data < 256 := UInt8.toNat_lt _

/-- A file whose header has no problem holds at least one bank, and its banks are whole. -/
theorem build_file (name : String) (hbanks : Bytes.get data 4 ≠ 0)
    (hsize : fileSize data ≤ data.size) :
    (((({} : Builder).name name).mapper (mapperOf data)).prg
      (data.extract headerSize (headerSize + prgSize data))).build =
        .ok ⟨name, mapperOf data, data.extract headerSize (headerSize + prgSize data)⟩ := by
  have hextract : (data.extract headerSize (headerSize + prgSize data)).size = prgSize data := by
    rw [fileSize] at hsize
    rw [ByteArray.size_extract, Nat.min_eq_left (by omega), Nat.add_sub_cancel_left]
  have hcount : (Bytes.get data 4).toNat ≠ 0 := fun h => hbanks (UInt8.toNat_inj.1 h)
  refine build_banks name (mapperOf_lt data) ?_ ?_
  · rw [hextract]
    exact Nat.mul_ne_zero hcount (by decide)
  · rw [hextract, prgSize, Nat.mul_mod_left]

theorem parse_of_short (name : String) (h : data.size < headerSize) :
    parse data name = .error (.truncated data.size headerSize) := if_pos h

theorem parse_of_problem (name : String) (h : headerSize ≤ data.size) {why : HeaderProblem}
    (hwhy : checks.find? (affects data) = some why) :
    parse data name = .error (.unsupported why) := by
  unfold parse
  rw [if_neg (Nat.not_lt.2 h), headerProblem?_eq_find? h, hwhy]

theorem parse_of_missing (name : String) (h : headerSize ≤ data.size)
    (hnone : checks.find? (affects data) = none) (hsize : data.size < fileSize data) :
    parse data name = .error (.truncated data.size (fileSize data)) := by
  unfold parse
  rw [if_neg (Nat.not_lt.2 h), headerProblem?_eq_find? h, hnone]
  exact if_pos hsize

theorem parse_of_accepted (name : String) (h : Accepted data) :
    parse data name =
      .ok ⟨name, mapperOf data, data.extract headerSize (headerSize + prgSize data)⟩ := by
  obtain ⟨hheader, hchecks, hsize⟩ := accepted_iff.1 h
  have hnone : checks.find? (affects data) = none := by simpa using hchecks
  unfold parse
  rw [if_neg (Nat.not_lt.2 hheader), headerProblem?_eq_find? hheader, hnone]
  refine (if_neg (Nat.not_lt.2 hsize)).trans ?_
  have hbuild := build_file name h.banks hsize
  rw [prgSize] at hbuild ⊢
  rw [hbuild]
  rfl

/-- The four ways in which reading ends. -/
theorem parse_cases (data : ByteArray) (name : String) :
    (data.size < headerSize ∧ parse data name = .error (.truncated data.size headerSize)) ∨
    (∃ why, headerSize ≤ data.size ∧ checks.find? (affects data) = some why ∧
      parse data name = .error (.unsupported why)) ∨
    (headerSize ≤ data.size ∧ checks.find? (affects data) = none ∧ data.size < fileSize data ∧
      parse data name = .error (.truncated data.size (fileSize data))) ∨
    (Accepted data ∧ parse data name =
      .ok ⟨name, mapperOf data, data.extract headerSize (headerSize + prgSize data)⟩) := by
  by_cases hheader : data.size < headerSize
  · exact .inl ⟨hheader, parse_of_short name hheader⟩
  have hheader := Nat.le_of_not_lt hheader
  cases hchecks : checks.find? (affects data) with
  | some why => exact .inr (.inl ⟨why, hheader, rfl, parse_of_problem name hheader hchecks⟩)
  | none =>
    by_cases hsize : data.size < fileSize data
    · exact .inr (.inr (.inl ⟨hheader, rfl, hsize, parse_of_missing name hheader hchecks hsize⟩))
    · have haccepted := accepted_iff.2
        ⟨hheader, by simpa using hchecks, Nat.le_of_not_lt hsize⟩
      exact .inr (.inr (.inr ⟨haccepted, parse_of_accepted name haccepted⟩))

theorem mapperOf_eq (data : ByteArray) : mapperOf data =
    (Bytes.get data 7 &&& 0xf0).toNat ||| (Bytes.get data 6).toNat >>> 4 := by
  rw [mapperOf, UInt8.toNat_or, UInt8.toNat_shiftRight]
  rfl

theorem parse_eq_ok_iff {name : String} {rom : Rom} : parse data name = .ok rom ↔ Accepted data ∧
    rom = ⟨name, mapperOf data, data.extract headerSize (headerSize + prgSize data)⟩ := by
  constructor
  case mp =>
    intro h
    obtain ⟨-, hparse⟩ | ⟨why, -, -, hparse⟩ | ⟨-, -, -, hparse⟩ | ⟨haccepted, hparse⟩ :=
      parse_cases data name
    all_goals rw [hparse] at h; cases h
    exact ⟨haccepted, rfl⟩
  case mpr =>
    rintro ⟨haccepted, rfl⟩
    exact parse_of_accepted name haccepted

theorem parse_eq_truncated_iff {name : String} {size expected : Nat} :
    parse data name = .error (.truncated size expected) ↔
      size = data.size ∧ (data.size < headerSize ∧ expected = headerSize ∨
        headerSize ≤ data.size ∧ (∀ why ∈ checks, affects data why = false) ∧
          data.size < fileSize data ∧ expected = fileSize data) := by
  constructor
  case mp =>
    intro h
    obtain ⟨hshort, hparse⟩ | ⟨why, -, -, hparse⟩ | ⟨hheader, hnone, hsize, hparse⟩ |
      ⟨-, hparse⟩ := parse_cases data name
    all_goals rw [hparse] at h; cases h
    · exact ⟨rfl, .inl ⟨hshort, rfl⟩⟩
    · exact ⟨rfl, .inr ⟨hheader, by simpa using hnone, hsize, rfl⟩⟩
  case mpr =>
    rintro ⟨rfl, ⟨hshort, rfl⟩ | ⟨hheader, hchecks, hsize, rfl⟩⟩
    · exact parse_of_short name hshort
    · exact parse_of_missing name hheader (by simpa using hchecks) hsize

theorem parse_eq_unsupported_iff {name : String} {why : HeaderProblem} :
    parse data name = .error (.unsupported why) ↔
      headerSize ≤ data.size ∧ checks.find? (affects data) = some why := by
  constructor
  case mp =>
    intro h
    obtain ⟨-, hparse⟩ | ⟨why, hheader, hwhy, hparse⟩ | ⟨-, -, -, hparse⟩ | ⟨-, hparse⟩ :=
      parse_cases data name
    all_goals rw [hparse] at h; cases h
    exact ⟨hheader, hwhy⟩
  case mpr => exact fun h => parse_of_problem name h.1 h.2

theorem parse_ne_build (data : ByteArray) (name : String) (e : BuildError) :
    parse data name ≠ .error (.build e) := by
  intro h
  obtain ⟨-, hparse⟩ | ⟨_, -, -, hparse⟩ | ⟨-, -, -, hparse⟩ | ⟨-, hparse⟩ :=
    parse_cases data name
  all_goals rw [hparse] at h; cases h

/-! ## Writing -/

/-- The header of a file with banks of both kinds for a mapper number. -/
def header (mapper prgBanks chrBanks : UInt8) : ByteArray :=
  ⟨#[0x4e, 0x45, 0x53, 0x1a, prgBanks, chrBanks, mapper <<< 4, mapper &&& 0xf0,
    0, 0, 0, 0, 0, 0, 0, 0]⟩

/-- The file of a mapper number and the contents of the banks. -/
def encode (mapper : UInt8) (prg chr : ByteArray) : ByteArray :=
  header mapper (prg.size / bankSize).toUInt8 (chr.size / chrBank).toUInt8 ++ (prg ++ chr)

/-- A mapper number is put together again from its halves. -/
theorem join_halves (m : UInt8) :
    (m &&& (0xf0 : UInt8) &&& (0xf0 : UInt8)) ||| (m <<< (4 : UInt8)) >>> (4 : UInt8) = m := by
  rw [← UInt8.toBitVec_inj]
  refine BitVec.eq_of_getLsbD_eq fun i hi => ?_
  interval_cases i <;> simp

theorem no_format_bits (m : UInt8) : m &&& 0xf0 &&& 0x0c ≠ 0x08 := by
  rw [UInt8.and_assoc, show (0xf0 &&& 0x0c : UInt8) = 0 from rfl, UInt8.and_zero]
  decide

theorem no_trainer_bit (m : UInt8) : (m <<< 4).toNat.testBit 2 = false := by
  rw [UInt8.toNat_shiftLeft, show (4 : UInt8).toNat % 8 = 4 from rfl, Nat.testBit_mod_two_pow,
    Nat.testBit_shiftLeft]
  simp

/-- The number of banks fits a byte. -/
theorem toNat_banks {size count bank : Nat} (hsize : size = count * bank) (hbank : 0 < bank)
    (hcount : count ≤ 255) : (size / bank).toUInt8.toNat = count := by
  rw [hsize, Nat.mul_div_cancel _ hbank]
  exact Nat.mod_eq_of_lt (Nat.lt_succ_of_le hcount)

section

variable {mapper : UInt8} {prg chr : ByteArray} {p c : Nat}

theorem size_encode (rest : ByteArray) : (encode mapper prg chr ++ rest).size =
    headerSize + prg.size + chr.size + rest.size := by
  simp only [encode, ByteArray.size_append, Nat.add_assoc]
  rfl

/-- Bytes of a header, whatever comes after it. -/
theorem get_encode (rest : ByteArray) {i : Nat} (hi : i < headerSize) :
    Bytes.get (encode mapper prg chr ++ rest) i =
      Bytes.get (header mapper (prg.size / bankSize).toUInt8 (chr.size / chrBank).toUInt8) i := by
  rw [encode, ByteArray.append_assoc, Bytes.get_append_left _ hi]

theorem get_encode_prgBanks (rest : ByteArray) :
    Bytes.get (encode mapper prg chr ++ rest) 4 = (prg.size / bankSize).toUInt8 :=
  get_encode rest (by decide)

theorem get_encode_chrBanks (rest : ByteArray) :
    Bytes.get (encode mapper prg chr ++ rest) 5 = (chr.size / chrBank).toUInt8 :=
  get_encode rest (by decide)

theorem get_encode_flags6 (rest : ByteArray) :
    Bytes.get (encode mapper prg chr ++ rest) 6 = mapper <<< 4 := get_encode rest (by decide)

theorem get_encode_flags7 (rest : ByteArray) :
    Bytes.get (encode mapper prg chr ++ rest) 7 = mapper &&& 0xf0 := get_encode rest (by decide)

theorem accepted_encode (rest : ByteArray) (hp : 1 ≤ p) (hp' : p ≤ 255)
    (hprg : prg.size = p * bankSize) (hc : c ≤ 255) (hchr : chr.size = c * chrBank) :
    Accepted (encode mapper prg chr ++ rest) := by
  have hbanks := toNat_banks hprg (by decide) hp'
  have hchrBanks := toNat_banks hchr (by decide) hc
  constructor
  case header =>
    rw [size_encode, headerSize]
    omega
  case magic =>
    rw [get_encode rest (by decide), get_encode rest (by decide), get_encode rest (by decide),
      get_encode rest (by decide)]
    rfl
  case format => exact get_encode_flags7 rest ▸ no_format_bits mapper
  case reserved =>
    intro i hi hi'
    rw [get_encode rest (Nat.lt_succ_of_le hi')]
    interval_cases i <;> rfl
  case trainer => exact get_encode_flags6 rest ▸ no_trainer_bit mapper
  case banks =>
    rw [get_encode_prgBanks]
    intro hzero
    rw [hzero] at hbanks
    exact absurd hbanks.symm (Nat.ne_of_gt hp)
  case size =>
    rw [get_encode_prgBanks, get_encode_chrBanks, hbanks, hchrBanks, size_encode, hprg, hchr,
      headerSize, bankSize, chrBank]
    omega

theorem extract_encode (rest : ByteArray) :
    (encode mapper prg chr ++ rest).extract headerSize (headerSize + prg.size) = prg := by
  have hskip := @ByteArray.extract_append_size_add
    (header mapper (prg.size / bankSize).toUInt8 (chr.size / chrBank).toUInt8)
    (prg ++ (chr ++ rest)) 0 prg.size
  rw [encode, ByteArray.append_assoc, ByteArray.append_assoc]
  exact hskip.trans (ByteArray.extract_append_eq_left rfl)

theorem parse_encode (rest : ByteArray) (name : String) (hp : 1 ≤ p) (hp' : p ≤ 255)
    (hprg : prg.size = p * bankSize) (hc : c ≤ 255) (hchr : chr.size = c * chrBank) :
    parse (encode mapper prg chr ++ rest) name = .ok ⟨name, mapper.toNat, prg⟩ := by
  have hmapper : mapperOf (encode mapper prg chr ++ rest) = mapper.toNat := by
    rw [mapperOf, get_encode_flags6, get_encode_flags7]
    exact congrArg UInt8.toNat (join_halves mapper)
  have hsize : prgSize (encode mapper prg chr ++ rest) = prg.size := by
    rw [prgSize, get_encode_prgBanks, toNat_banks hprg (by decide) hp', hprg]
  rw [parse_of_accepted name (accepted_encode rest hp hp' hprg hc hchr), hmapper, hsize,
    extract_encode]

end

/-! ## The format -/

/-- Files are read if they are in the format, the ROM is what the file says, and the error tells
what is wrong. What is written in the format is read back, whatever follows it. -/
theorem parse_format :
    (∀ (data : ByteArray) (name : String),
      ((∃ rom, parse data name = .ok rom) ↔ Accepted data) ∧
      (∀ rom, parse data name = .ok rom → rom.name = name ∧
        rom.mapper = (Bytes.get data 7 &&& 0xf0).toNat ||| (Bytes.get data 6).toNat >>> 4 ∧
        rom.prg = data.extract 16 (16 + (Bytes.get data 4).toNat * 16384)) ∧
      (∀ size expected, parse data name = .error (.truncated size expected) ↔
        size = data.size ∧ (data.size < 16 ∧ expected = 16 ∨
          16 ≤ data.size ∧ (∀ why ∈ checks, affects data why = false) ∧
            data.size < fileSize data ∧ expected = fileSize data)) ∧
      (∀ why, parse data name = .error (.unsupported why) ↔
        16 ≤ data.size ∧ affects data why = true ∧ ∃ before after,
          checks = before ++ why :: after ∧ ∀ other ∈ before, affects data other = false) ∧
      (∀ e, parse data name ≠ .error (.build e))) ∧
    (∀ (mapper : UInt8) (prg chr rest : ByteArray) (name : String) (p c : Nat), 1 ≤ p → p ≤ 255 →
      prg.size = p * bankSize → c ≤ 255 → chr.size = c * chrBank →
      parse (encode mapper prg chr ++ rest) name = .ok ⟨name, mapper.toNat, prg⟩) := by
  refine ⟨fun data name => ⟨?accepted, ?content, fun _ _ => parse_eq_truncated_iff, ?unsupported,
    parse_ne_build data name⟩, fun _ _ _ rest name _ _ => parse_encode rest name⟩
  case accepted =>
    simp only [parse_eq_ok_iff]
    exact ⟨fun ⟨_, haccepted, _⟩ => haccepted, fun haccepted => ⟨_, haccepted, rfl⟩⟩
  case content =>
    intro rom h
    obtain ⟨-, rfl⟩ := parse_eq_ok_iff.1 h
    exact ⟨rfl, mapperOf_eq data, rfl⟩
  case unsupported =>
    intro why
    rw [parse_eq_unsupported_iff, List.find?_eq_some_iff_append]
    simp only [Bool.not_eq_true', headerSize]

/-- A file with two PRG banks and a mapper number that needs both halves. -/
theorem parse_format_mapper_66 :
    parse (encode 66 (Bytes.zeros 32768) (Bytes.zeros 8192) ++ Bytes.zeros 3) "demo" =
      .ok ⟨"demo", 66, Bytes.zeros 32768⟩ :=
  parse_format.2 66 (Bytes.zeros 32768) (Bytes.zeros 8192) (Bytes.zeros 3) "demo" 2 1 (by decide)
    (by decide) (Bytes.size_zeros _) (by decide) (Bytes.size_zeros _)

/-- A header with a problem is reported although the banks that it counts are missing. -/
theorem parse_misspelled :
    let data : ByteArray := ⟨#[0x58, 0x58, 0x58, 0x58, 1, 0, 0, 0, 0, 0, 0, 0, 0, 0, 0, 0]⟩
    data.size < 16 + 16384 * (Bytes.get data 4).toNat + 8192 * (Bytes.get data 5).toNat ∧
      (∀ size expected, parse data "n" ≠ .error (.truncated size expected)) ∧
      parse data "n" = .error (.unsupported .notINes) := by
  intro data
  have hparse : parse data "n" = .error (.unsupported .notINes) :=
    parse_eq_unsupported_iff.2 ⟨by decide, by decide⟩
  refine ⟨by decide, fun size expected h => ?_, hparse⟩
  rw [hparse] at h
  cases h

end Cartridge.INes

end CycleCheck
