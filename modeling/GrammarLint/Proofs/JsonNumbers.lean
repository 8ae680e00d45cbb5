import Mathlib
import GrammarLint.Json.Reader
import GrammarLint.Json.Writer

open List

namespace GrammarLint.Json

/-- What may stand behind a value: the end of the text, a comma or a new line. -/
def Ends (rest : List Char) : Prop := ∀ c, rest.head? = some c → c = ',' ∨ c = '\n'

theorem isDecimalDigit_of_mem_toDigits {n : Nat} {c : Char} (mem : c ∈ Nat.toDigits 10 n) :
    isDecimalDigit c = true :=
  Nat.isDigit_of_mem_toDigits (by decide) (by decide) mem

theorem exists_toDigits (n : Nat) :
    ∃ c digits, Nat.toDigits 10 n = c :: digits ∧ isDecimalDigit c = true := by
  cases written : Nat.toDigits 10 n with
  | nil => exact absurd written Nat.toDigits_ne_nil
  | cons c digits => exact ⟨c, digits, rfl, isDecimalDigit_of_mem_toDigits (written ▸ mem_cons_self)⟩

/-- A number above zero is written without a zero at its front. -/
theorem head_toDigits {n : Nat} (positive : 0 < n) : (Nat.toDigits 10 n).head? ≠ some '0' := by
  induction n using Nat.strongRecOn with
  | ind n ih =>
    rw [Nat.toDigits_eq_if (by decide)]
    split
    · simp only [head?_cons, ne_eq, Option.some.injEq, Nat.digitChar_eq_zero]
      omega
    · rw [head?_append_of_ne_nil _ Nat.toDigits_ne_nil]
      exact ih (n / 10) (by omega) (by omega)

theorem digitsValue_eq (digits : List Char) : digitsValue digits = Nat.ofDigitChars 10 digits 0 := rfl

theorem digitsValue_lt {digits : List Char} (each : ∀ c ∈ digits, isDecimalDigit c = true) :
    digitsValue digits < 10 ^ digits.length := by
  induction digits with
  | nil => simp [digitsValue]
  | cons c digits ih =>
    obtain ⟨first, later⟩ := forall_mem_cons.mp each
    have small := ih later
    have digit : c.toNat - '0'.toNat ≤ 9 := by
      have upper : c ≤ '9' := by simpa using (Bool.and_eq_true_iff.mp first).2
      exact Nat.sub_le_sub_right upper '0'.toNat
    rw [digitsValue_eq] at small ⊢
    rw [Nat.ofDigitChars_cons, Nat.ofDigitChars_eq_ofDigitChars_zero]
    calc 10 ^ digits.length * (10 * 0 + (c.toNat - '0'.toNat)) + Nat.ofDigitChars 10 digits 0
        < 10 ^ digits.length * 9 + 10 ^ digits.length :=
          Nat.add_lt_add_of_le_of_lt (Nat.mul_le_mul_left _ (by omega)) small
      _ = 10 ^ digits.length * 10 := by ring

section Numerals

variable {rest : List Char}

theorem spanDigits_append {digits : List Char} (each : ∀ c ∈ digits, isDecimalDigit c = true)
    (ends : Ends rest) : spanDigits (digits ++ rest) = (digits, rest) := by
  have stop : rest.takeWhile isDecimalDigit = [] ∧ rest.dropWhile isDecimalDigit = rest := by
    match rest with
    | [] => exact ⟨rfl, rfl⟩
    | c :: rest =>
      have noDigit : isDecimalDigit c = false := by
        rcases ends c rfl with rfl | rfl <;> rfl
      simp [noDigit]
  rw [spanDigits, takeWhile_append_of_pos each, dropWhile_append_of_pos each, stop.1, stop.2,
    append_nil]

theorem readWhole_toDigits (n : Nat) (ends : Ends rest) :
    readWhole (Nat.toDigits 10 n ++ rest) = some (Nat.toDigits 10 n, rest) := by
  rcases Nat.eq_zero_or_pos n with rfl | positive
  · rfl
  · have each := @isDecimalDigit_of_mem_toDigits n
    have noZero := head_toDigits positive
    cases written : Nat.toDigits 10 n with
    | nil => exact absurd written Nat.toDigits_ne_nil
    | cons c digits =>
      rw [written] at each noZero
      obtain ⟨first, later⟩ := forall_mem_cons.mp fun d mem => each mem
      rw [cons_append, readWhole]
      · simp [first, spanDigits_append later ends]
      · rintro rfl
        exact noZero rfl

theorem readFraction_ends (ends : Ends rest) : readFraction rest = (none, rest) := by
  match rest with
  | [] => rfl
  | c :: rest => rcases ends c rfl with rfl | rfl <;> rfl

theorem readExponent_ends (ends : Ends rest) : readExponent rest = (none, rest) := by
  match rest with
  | [] => rfl
  | c :: rest => rcases ends c rfl with rfl | rfl <;> rfl

end Numerals

theorem toList_toString_int (n : Int) : (toString n).toList =
    if n < 0 then '-' :: Nat.toDigits 10 n.natAbs else Nat.toDigits 10 n.natAbs := by
  rw [Int.toString_eq_repr, Int.repr_eq_if]
  split
  · rw [if_neg (by omega), Nat.toList_repr]
    congr
    omega
  · rw [if_pos (by omega), String.toList_append, Nat.toList_repr]
    have size : (-n).toNat = n.natAbs := by omega
    rw [size]
    rfl

theorem exists_toString_int (n : Int) :
    ∃ c cs, (toString n).toList = c :: cs ∧ (c = '-' ∨ isDecimalDigit c = true) := by
  obtain ⟨c, digits, written, digit⟩ := exists_toDigits n.natAbs
  rw [toList_toString_int, written]
  split
  · exact ⟨_, _, rfl, .inl rfl⟩
  · exact ⟨_, _, rfl, .inr digit⟩

variable {n : Int} {rest cs : List Char} {limits : Limits} {numeral : Numeral}

theorem mem_toString_int {c : Char} (mem : c ∈ (toString n).toList) :
    c = '-' ∨ isDecimalDigit c = true := by
  rw [toList_toString_int] at mem
  split at mem
  · exact (mem_cons.mp mem).imp_right isDecimalDigit_of_mem_toDigits
  · exact .inr (isDecimalDigit_of_mem_toDigits mem)

/-- A whole number is read up to what stands behind it. -/
theorem readNumeral_int (n : Int) (ends : Ends rest) :
    readNumeral ((toString n).toList ++ rest) =
      some (⟨decide (n < 0), Nat.toDigits 10 n.natAbs, none, none⟩, rest) := by
  have whole := readWhole_toDigits n.natAbs ends
  rw [toList_toString_int]
  by_cases negative : n < 0
  · rw [if_pos negative, cons_append, readNumeral]
    simp [whole, readFraction_ends ends, readExponent_ends ends, negative]
  · rw [if_neg negative]
    obtain ⟨c, digits, written, digit⟩ := exists_toDigits n.natAbs
    rw [written, cons_append] at whole ⊢
    rw [readNumeral]
    · simp [whole, readFraction_ends ends, readExponent_ends ends, negative]
    · rintro _ ⟨⟩
      cases digit

/-- No word begins like a number. -/
theorem words_find?_int (n : Int) (rest : List Char) :
    words.find? (·.1.isPrefixOf ((toString n).toList ++ rest)) = none := by
  have first : ∀ word ∈ words, word.1.head?.any isDecimalDigit = false := by decide
  have second : ∀ word ∈ words, word.1.tail.head?.any isDecimalDigit = false := by decide
  have long : ∀ word ∈ words, 1 < word.1.length := by decide
  obtain ⟨c, digits, written, digit⟩ := exists_toDigits n.natAbs
  refine find?_eq_none.mpr fun word mem begins => ?_
  have size := long word mem
  have noFirst := first word mem
  have noSecond := second word mem
  match word with
  | ([], _) => simp at size
  | ([_], _) => simp at size
  | (d :: e :: letters, _) =>
    rw [toList_toString_int] at begins
    split at begins <;> simp_all

theorem readPlain_int (positive : 0 < limits.digits) (few : n.natAbs < 10 ^ limits.digits)
    (ends : Ends rest) : readPlain limits ((toString n).toList ++ rest) = .ok (.int n, rest) := by
  have short : (Nat.toDigits 10 n.natAbs).length ≤ limits.digits :=
    (Nat.length_toDigits_le_iff (by decide) positive).mpr few
  rw [readPlain, words_find?_int, readNumeral_int n ends]
  simp only [Numeral.isWhole, Option.isNone_none, Bool.and_self, Bool.true_and, decide_eq_true_eq,
    Nat.not_lt.mpr short, if_false, Numeral.value, if_true, digitsValue_eq,
    Nat.ofDigitChars_ten_toDigits]
  congr
  split <;> omega

theorem readWhole_digits {whole : List Char} (read : readWhole cs = some (whole, rest)) :
    ∀ c ∈ whole, isDecimalDigit c = true := by
  unfold readWhole at read
  split at read
  · cases read
    simp [isDecimalDigit]
  · split at read
    · rename_i digit
      cases read
      exact forall_mem_cons.mpr ⟨digit, fun d mem => mem_takeWhile_imp mem⟩
    · cases read
  · cases read

theorem readNumeral_digits (read : readNumeral cs = some (numeral, rest)) :
    ∀ c ∈ numeral.whole, isDecimalDigit c = true := by
  unfold readNumeral at read
  all_goals
    obtain ⟨⟨whole, later⟩, readWhole, rest⟩ := Option.bind_eq_some_iff.mp read
    cases rest
    exact readWhole_digits readWhole

theorem Numeral.natAbs_value (value : numeral.value = .int n) :
    numeral.isWhole = true ∧ n.natAbs = digitsValue numeral.whole := by
  unfold Numeral.value at value
  split at value
  · rename_i isWhole
    cases value
    refine ⟨isWhole, ?_⟩
    split <;> simp
  · cases value

/-- A number that is read without point and exponent is no longer than the limit allows. -/
theorem readPlain_few (read : readPlain limits cs = .ok (.int n, rest)) :
    n.natAbs < 10 ^ limits.digits := by
  have noInt : ∀ word ∈ words, word.2 ≠ .int n := by simp [words]
  unfold readPlain at read
  split at read
  · rename_i word value found
    cases read
    exact absurd rfl (noInt _ (mem_of_find?_eq_some found))
  · split at read
    · rename_i numeral _ written
      split at read
      · cases read
      · rename_i short
        obtain ⟨value, -⟩ := Prod.mk.inj (Except.ok.inj read)
        obtain ⟨isWhole, size⟩ := Numeral.natAbs_value value
        rw [isWhole, Bool.true_and, decide_eq_true_eq, Nat.not_lt] at short
        rw [size]
        exact Nat.lt_of_lt_of_le (digitsValue_lt (readNumeral_digits written))
          (Nat.pow_le_pow_right (by decide) short)
    · cases read

/-- What is neither text nor array nor object. -/
theorem readPlain_kind {value : Value} (read : readPlain limits cs = .ok (value, rest)) :
    value = .null ∨ (∃ b, value = .bool b) ∨ (∃ n, value = .int n) ∨ ∃ x, value = .float x := by
  have plain : ∀ word ∈ words, word.2 = .null ∨ (∃ b, word.2 = .bool b) ∨ ∃ x, word.2 = .float x := by
    simp [words]
  unfold readPlain at read
  split at read
  · rename_i word _ found
    cases read
    rcases plain _ (mem_of_find?_eq_some found) with null | bool | float
    · exact .inl null
    · exact .inr (.inl bool)
    · exact .inr (.inr (.inr float))
  · split at read
    · split at read
      · cases read
      · cases read
        unfold Numeral.value
        split
        · exact .inr (.inr (.inl ⟨_, rfl⟩))
        · exact .inr (.inr (.inr ⟨_, rfl⟩))
    · cases read

end GrammarLint.Json
