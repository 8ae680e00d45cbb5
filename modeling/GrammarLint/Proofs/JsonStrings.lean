import Mathlib
import GrammarLint.Json.Reader
import GrammarLint.Json.Writer

open List

namespace GrammarLint.Json

open Text (CodePoint Loose)

/-- No first half of a pair has the second half of one behind it. -/
def Unpaired (points : List CodePoint) : Prop :=
  points.IsChain fun p q => ¬(isHigh p.value = true ∧ isLow q.value = true)

variable {n m : Nat} {rest : List TextUnit} {points : List CodePoint} (c : Char)

theorem isHigh_iff : isHigh n = true ↔ 0xd800 ≤ n ∧ n < 0xdc00 := by simp [isHigh]

theorem isLow_iff : isLow n = true ↔ 0xdc00 ≤ n ∧ n < 0xe000 := by simp [isLow]

theorem char_range : c.toNat < 0xd800 ∨ 0xdfff < c.toNat ∧ c.toNat < 0x110000 := c.valid

@[simp]
theorem isHigh_char : isHigh (CodePoint.char c).value = false := by
  rw [Bool.eq_false_iff, Ne, isHigh_iff, CodePoint.value]
  have := char_range c
  omega

@[simp]
theorem isLow_char : isLow (CodePoint.char c).value = false := by
  rw [Bool.eq_false_iff, Ne, isLow_iff, CodePoint.value]
  have := char_range c
  omega

theorem unpaired_ofString (s : String) : Unpaired (Loose.ofString s).points := by
  rw [Loose.ofString]
  induction s.toList with
  | nil => exact .nil
  | cons c cs ih =>
    refine isChain_cons.mpr ⟨fun point _ pair => ?_, ih⟩
    rw [isHigh_char] at pair
    exact Bool.false_ne_true pair.1

theorem pointOfCode_half (half : 0xd800 ≤ n ∧ n < 0xe000) :
    pointOfCode n = .half (Fin.ofNat 0x800 (n - 0xd800)) ∧ (pointOfCode n).value = n := by
  have either : (isHigh n || isLow n) = true := by
    rw [Bool.or_eq_true, isHigh_iff, isLow_iff]
    omega
  rw [pointOfCode, if_pos either]
  refine ⟨rfl, ?_⟩
  simp only [CodePoint.value, Fin.ofNat]
  omega

theorem pointOfCode_value (place : Fin 0x800) :
    pointOfCode (CodePoint.half place).value = .half place := by
  rw [(pointOfCode_half (by simp only [CodePoint.value]; omega)).1]
  refine congrArg CodePoint.half (Fin.ext ?_)
  simp only [CodePoint.value, Fin.ofNat]
  omega

theorem pointOfCode_char (whole : ¬(0xd800 ≤ n ∧ n < 0xe000)) : pointOfCode n = .char (Char.ofNat n) := by
  refine if_neg ?_
  rw [Bool.or_eq_true, isHigh_iff, isLow_iff]
  omega

@[simp]
theorem isHigh_pointOfCode (n : Nat) : isHigh (pointOfCode n).value = isHigh n := by
  by_cases half : 0xd800 ≤ n ∧ n < 0xe000
  · rw [(pointOfCode_half half).2]
  · rw [pointOfCode_char half, isHigh_char, eq_comm, Bool.eq_false_iff, Ne, isHigh_iff]
    omega

@[simp]
theorem isLow_pointOfCode (n : Nat) : isLow (pointOfCode n).value = isLow n := by
  by_cases half : 0xd800 ≤ n ∧ n < 0xe000
  · rw [(pointOfCode_half half).2]
  · rw [pointOfCode_char half, isLow_char, eq_comm, Bool.eq_false_iff, Ne, isLow_iff]
    omega

theorem joinUnits_char (rest : List TextUnit) :
    joinUnits (.char c :: rest) = .char c :: joinUnits rest := by rw [joinUnits]

/-- A code unit that makes no pair with the next stands alone. -/
theorem joinUnits_code (alone : ∀ m later, rest = .code m :: later → ¬(isHigh n = true ∧ isLow m = true)) :
    joinUnits (.code n :: rest) = pointOfCode n :: joinUnits rest := by
  match rest with
  | [] => rfl
  | .char c :: later => rw [joinUnits, joinUnits]
  | .code m :: later =>
    have apart := alone m later rfl
    rw [joinUnits, if_neg (by simpa using apart)]

theorem joinUnits_pair (high : isHigh n = true) (low : isLow m = true) :
    joinUnits (.code n :: .code m :: rest) =
      .char (Char.ofNat (0x10000 + (n - 0xd800) * 1024 + (m - 0xdc00))) :: joinUnits rest := by
  rw [joinUnits, if_pos (by simp [high, low])]

/-- A text begins with the second half of a pair only if its first unit is one. -/
theorem isLow_of_head_joinUnits {q : CodePoint} (head : (joinUnits (.code m :: rest)).head? = some q)
    (low : isLow q.value = true) : isLow m = true := by
  match rest with
  | [] =>
    cases head
    simpa using low
  | .char c :: later =>
    cases head
    simpa using low
  | .code n :: later =>
    rw [joinUnits] at head
    split at head <;> cases head
    · simp at low
    · simpa using low

/-- What is read from a quoted text has its pairs joined. -/
theorem joinUnits_unpaired (units : List TextUnit) : Unpaired (joinUnits units) := by
  induction units using joinUnits.induct with
  | case1 => exact .nil
  | case2 c rest ih =>
    exact isChain_cons.mpr ⟨by simp, ih⟩
  | case3 n => exact .singleton _
  | case4 n c rest ih =>
    exact .cons_cons (by simp) (isChain_cons.mpr ⟨by simp, ih⟩)
  | case5 n m rest pair ih =>
    rw [joinUnits, if_pos pair]
    exact isChain_cons.mpr ⟨by simp, ih⟩
  | case6 n m rest apart ih =>
    rw [joinUnits, if_neg apart]
    refine isChain_cons.mpr ⟨fun q head => ?_, ih⟩
    rintro ⟨high, low⟩
    have := isLow_of_head_joinUnits head low
    simp_all

def isDirect (c : Char) : Bool :=
  ['"', '\\', '\n', '\r', '\t', '\x0c', '\x08'].contains c || decide (' ' ≤ c ∧ c ≤ '~')

/-- What the escape of a code point is read as. -/
def unitsOf : CodePoint → List TextUnit
  | .char c =>
    if isDirect c then [.char c]
    else if c.toNat < 0x10000 then [.code c.toNat]
    else [.code (0xd800 + (c.toNat - 0x10000) / 1024), .code (0xdc00 + (c.toNat - 0x10000) % 1024)]
  | .half place => [.code (CodePoint.half place).value]

theorem hexValue_hexDigit : ∀ n < 16, hexValue (hexDigit n) = some n := by decide

theorem hexCode_hex4 (small : n < 0x10000) :
    hexCode (hexDigit (n / 4096 % 16)) (hexDigit (n / 256 % 16)) (hexDigit (n / 16 % 16))
      (hexDigit (n % 16)) = some n := by
  have digit (m : Nat) : hexValue (hexDigit (m % 16)) = some (m % 16) :=
    hexValue_hexDigit _ (Nat.mod_lt _ (by decide))
  simp only [hexCode, digit, Option.bind_eq_bind, Option.bind_some, Option.pure_def, Option.some.injEq]
  omega

section Escapes

variable {begun : Nat} {rest behind : List Char} {units : List TextUnit}

theorem readUnits_unicodeEscape (small : n < 0x10000)
    (read : readUnits begun rest = .ok (units, behind)) :
    readUnits begun (unicodeEscape n ++ rest) = .ok (.code n :: units, behind) := by
  match rest with
  | [] => cases read
  | c :: rest =>
    simp only [unicodeEscape, hex4, cons_append, nil_append]
    rw [readUnits.eq_def]
    simp only [hexCode_hex4 small, read]
    rfl

variable {c : Char}

/-- A letter behind a backslash. -/
theorem readUnits_shortEscape {e : Char} (short : shortEscape e = some c)
    (read : readUnits begun rest = .ok (units, behind)) :
    readUnits begun ('\\' :: e :: rest) = .ok (.char c :: units, behind) := by
  have other : (e == 'u') = false := by
    rw [beq_eq_false_iff_ne]
    rintro rfl
    cases short
  rw [readUnits.eq_def]
  simp only [other, short, read]
  rfl

theorem readUnits_printable (printable : ' ' ≤ c ∧ c ≤ '~') (noQuote : c ≠ '"')
    (noBackslash : c ≠ '\\') (read : readUnits begun rest = .ok (units, behind)) :
    readUnits begun (c :: rest) = .ok (.char c :: units, behind) := by
  have notControl : ¬c.toNat < 0x20 := Nat.not_lt.mpr printable.1
  rw [readUnits.eq_def]
  simp only [beq_eq_false_iff_ne.mpr noQuote, beq_eq_false_iff_ne.mpr noBackslash, Bool.false_eq_true,
    if_false, notControl, read]
  rfl

/-- A direct character is written by a letter behind a backslash, or as it is. -/
theorem escapeChar_direct (direct : isDirect c = true) :
    (∃ e ∈ ['"', '\\', 'n', 'r', 't', 'f', 'b'], shortEscape e = some c ∧ escapeChar c = ['\\', e]) ∨
    (' ' ≤ c ∧ c ≤ '~') ∧ c ≠ '"' ∧ c ≠ '\\' ∧ escapeChar c = [c] := by
  by_cases short : c ∈ ['"', '\\', '\n', '\r', '\t', '\x0c', '\x08']
  · left
    simp only [mem_cons, not_mem_nil, or_false] at short
    rcases short with rfl | rfl | rfl | rfl | rfl | rfl | rfl
    · exact ⟨'"', by decide, rfl, rfl⟩
    · exact ⟨'\\', by decide, rfl, rfl⟩
    · exact ⟨'n', by decide, rfl, rfl⟩
    · exact ⟨'r', by decide, rfl, rfl⟩
    · exact ⟨'t', by decide, rfl, rfl⟩
    · exact ⟨'f', by decide, rfl, rfl⟩
    · exact ⟨'b', by decide, rfl, rfl⟩
  · right
    have printable : ' ' ≤ c ∧ c ≤ '~' := by
      simpa only [isDirect, contains_iff_mem, short, Bool.or_eq_true, false_or,
        decide_eq_true_eq] using direct
    simp only [mem_cons, not_mem_nil, or_false, not_or] at short
    exact ⟨printable, short.1, short.2.1, by simp [escapeChar, short, printable]⟩

theorem escapeChar_indirect (indirect : ¬isDirect c = true) :
    escapeChar c = if c.toNat < 0x10000 then unicodeEscape c.toNat
      else unicodeEscape (0xd800 + (c.toNat - 0x10000) / 1024) ++
        unicodeEscape (0xdc00 + (c.toNat - 0x10000) % 1024) := by
  simp only [isDirect, Bool.or_eq_true, contains_iff_mem, mem_cons, not_mem_nil,
    or_false, decide_eq_true_eq, not_or] at indirect
  simp [escapeChar, indirect]

/-- The escape of a code point is read as its units. -/
theorem readUnits_escapePoint (point : CodePoint) (read : readUnits begun rest = .ok (units, behind)) :
    readUnits begun (escapePoint point ++ rest) = .ok (unitsOf point ++ units, behind) := by
  match point with
  | .half place => exact readUnits_unicodeEscape (by simp only [CodePoint.value]; omega) read
  | .char c =>
    rw [escapePoint, unitsOf]
    split
    · rename_i direct
      rcases escapeChar_direct direct with ⟨e, -, short, written⟩ | ⟨printable, noQuote, noBackslash, written⟩
      · rw [written]
        exact readUnits_shortEscape short read
      · rw [written]
        exact readUnits_printable printable noQuote noBackslash read
    · rename_i indirect
      have range := char_range c
      rw [escapeChar_indirect indirect]
      split
      · rename_i small
        exact readUnits_unicodeEscape small read
      · exact readUnits_unicodeEscape (by omega) (readUnits_unicodeEscape (by omega) read)

end Escapes

/-- The escapes of a text are read up to the quote that ends it. -/
theorem readUnits_points (begun : Nat) (points : List CodePoint) (rest : List Char) :
    readUnits begun (points.flatMap escapePoint ++ '"' :: rest) = .ok (points.flatMap unitsOf, rest) := by
  induction points with
  | nil =>
    rw [flatMap_nil, readUnits.eq_def]
    rfl
  | cons point points ih =>
    rw [flatMap_cons, append_assoc]
    exact readUnits_escapePoint point ih

/-- The units of a text begin with the second half of a pair only if the text does. -/
theorem isLow_of_head_unitsOf {later : List TextUnit} (head : points.flatMap unitsOf = .code m :: later)
    (low : isLow m = true) : ∃ q, points.head? = some q ∧ isLow q.value = true := by
  match points with
  | [] => cases head
  | .half place :: points =>
    cases head
    exact ⟨_, rfl, low⟩
  | .char c :: points =>
    rw [isLow_iff] at low
    rw [flatMap_cons, unitsOf] at head
    have range := char_range c
    split at head
    · cases head
    · split at head
      · cases head
        omega
      · cases head
        omega

/-- The units of a text are joined to the text. -/
theorem joinUnits_unitsOf (unpaired : Unpaired points) : joinUnits (points.flatMap unitsOf) = points := by
  induction points with
  | nil => rfl
  | cons point points ih =>
    obtain ⟨first, later⟩ := isChain_cons.mp unpaired
    rw [flatMap_cons]
    match point with
    | .half place =>
      rw [unitsOf, singleton_append, joinUnits_code, ih later, pointOfCode_value]
      rintro m rest head ⟨high, low⟩
      obtain ⟨q, isHead, low⟩ := isLow_of_head_unitsOf head low
      exact first q isHead ⟨high, low⟩
    | .char c =>
      have range := char_range c
      rw [unitsOf]
      split
      · rw [singleton_append, joinUnits_char, ih later]
      · split
        · rw [singleton_append, joinUnits_code, ih later, pointOfCode_char (by omega),
            Char.ofNat_toNat]
          rintro m rest - ⟨high, -⟩
          rw [isHigh_iff] at high
          omega
        · rw [cons_append, singleton_append, joinUnits_pair (isHigh_iff.mpr (by omega))
            (isLow_iff.mpr (by omega)), ih later]
          have code : 0x10000 + (0xd800 + (c.toNat - 0x10000) / 1024 - 0xd800) * 1024 +
              (0xdc00 + (c.toNat - 0x10000) % 1024 - 0xdc00) = c.toNat := by omega
          rw [code, Char.ofNat_toNat]

/-- What is written in quotes is read back. -/
theorem readString_quote {s : Loose} (unpaired : Unpaired s.points) (rest : List Char) :
    readString (s.points.flatMap escapePoint ++ '"' :: rest) = .ok (s, rest) := by
  rw [readString, readUnits_points]
  exact congrArg (fun points => Except.ok (Loose.mk points, rest)) (joinUnits_unitsOf unpaired)

end GrammarLint.Json
