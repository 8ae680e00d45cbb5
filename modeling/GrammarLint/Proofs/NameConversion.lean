import GrammarLint.Proofs.NameCases

open List

namespace GrammarLint

namespace Text

def Shift.isNear (shift : Shift) : Bool := decide (shift.first < 128)

/-- What the changes of case have of ASCII. -/
theorem near_tables : lowerShifts.filter Shift.isNear = [⟨65, 90, 1, 32⟩] ∧
    upperShifts.filter Shift.isNear = [⟨97, 122, 1, -32⟩, ⟨107, 107, 1, 8383⟩] ∧
    (longUpper ++ ownTitle).all (decide <| 128 ≤ ·.1) = true := by
  decide +kernel

section Ascii

variable {c : Char} (ascii : c.toNat < 128)
include ascii

theorem apply_of_ascii (shifts : List Shift) :
    Shift.apply shifts c = Shift.apply (shifts.filter Shift.isNear) c := by
  have near (shift : Shift) : (shift.isNear && shift.contains c.toNat) = shift.contains c.toNat := by
    rw [Bool.and_eq_right_iff_imp]
    intro contains
    simp only [Shift.contains, Bool.and_eq_true, decide_eq_true_eq] at contains
    simp only [Shift.isNear, decide_eq_true_eq]
    omega
  simp [Shift.apply, near]

theorem changed_of_ascii : c.toLower.toNat < 128 ∧ c.toUpper.toNat < 128 ∧
    (c ≠ '_' → c.toLower ≠ '_' ∧ c.toUpper ≠ '_') :=
  of_decide_eq_true (of_ascii (fun c => decide (c.toLower.toNat < 128 ∧ c.toUpper.toNat < 128 ∧
    (c ≠ '_' → c.toLower ≠ '_' ∧ c.toUpper ≠ '_'))) (by decide +kernel) c ascii)

/-- Within ASCII the tables of letters say what is known of its letters. -/
theorem case_of_ascii :
    isLower c = c.isLower ∧ isUpper c = c.isUpper ∧ Shift.apply lowerShifts c = c.toLower ∧
      upperChar c = [c.toUpper] ∧ titleChar c = [c.toUpper] := by
  obtain ⟨toLower, toUpper, far⟩ := near_tables
  have simple : longUpper.find? (·.1 == c.toNat) = none ∧ ownTitle.find? (·.1 == c.toNat) = none := by
    simp only [all_eq_true, mem_append, decide_eq_true_eq] at far
    simp only [find?_eq_none, beq_iff_eq]
    exact ⟨fun entry mem => by have := far entry (.inl mem); omega,
      fun entry mem => by have := far entry (.inr mem); omega⟩
  have all := of_ascii (fun c => isLower c == c.isLower && isUpper c == c.isUpper &&
    Shift.apply [⟨65, 90, 1, 32⟩] c == c.toLower &&
    Shift.apply [⟨97, 122, 1, -32⟩, ⟨107, 107, 1, 8383⟩] c == c.toUpper) (by decide +kernel) c ascii
  simp only [Bool.and_eq_true, beq_iff_eq, and_assoc] at all
  obtain ⟨isLow, isUp, low, up⟩ := all
  have upperChar : upperChar c = [c.toUpper] := by
    rw [upperChar, simple.1, apply_of_ascii ascii, toUpper, up]
  refine ⟨isLow, isUp, ?_, upperChar, ?_⟩
  · rw [apply_of_ascii ascii, toLower, low]
  · rw [titleChar, simple.2, upperChar]

end Ascii

variable {c : Char}

theorem toNat_lt_of_isAlphanum (letter : c.isAlphanum = true ∨ c = '_') : c.toNat < 128 := by
  rcases letter with letter | rfl
  · simp only [Char.isAlphanum, Char.isAlpha, Char.isUpper, Char.isLower, Char.isDigit, Bool.or_eq_true,
      Bool.and_eq_true, decide_eq_true_eq, UInt32.le_iff_toNat_le, ge_iff_le] at letter
    have codes : c.toNat = c.val.toNat ∧ 'Z'.val.toNat = 90 ∧ 'z'.val.toNat = 122 ∧ '9'.val.toNat = 57 :=
      ⟨rfl, rfl, rfl, rfl⟩
    omega
  · decide

theorem lowerAfter_of_ascii {text : List Char} (ascii : IsAscii text) (before : List Char) :
    lowerAfter before text = text.map Char.toLower := by
  induction text generalizing before with
  | nil => rfl
  | cons c rest ih =>
    obtain ⟨first, later⟩ := forall_mem_cons.mp ascii
    have plain : c ≠ 'Σ' ∧ c ≠ 'İ' := by
      constructor <;> (rintro rfl; exact absurd first (by decide))
    simp [lowerAfter, lowerAt, plain, (case_of_ascii first).2.2.1, ih later]

theorem capitalize_of_ascii {rest : List Char} (ascii : IsAscii (c :: rest)) :
    capitalize (c :: rest) = c.toUpper :: rest.map Char.toLower := by
  obtain ⟨first, later⟩ := forall_mem_cons.mp ascii
  rw [capitalize, (case_of_ascii first).2.2.2.2, lowerAfter_of_ascii later, singleton_append]

/-- No change of case makes an underscore. -/
theorem underscore_notMem_changed {part : List Char} (ascii : IsAscii part) (none : '_' ∉ part) :
    '_' ∉ part.map Char.toLower ∧ '_' ∉ capitalize part := by
  have changed : ∀ c ∈ part, c.toLower ≠ '_' ∧ c.toUpper ≠ '_' := fun c mem =>
    (changed_of_ascii (ascii c mem)).2.2 (ne_of_mem_of_not_mem mem none)
  refine ⟨fun mem => ?_, ?_⟩
  · obtain ⟨c, inPart, same⟩ := mem_map.mp mem
    exact (changed c inPart).1 same
  · cases part with
    | nil => exact not_mem_nil
    | cons c rest =>
      rw [capitalize_of_ascii ascii]
      grind

end Text

namespace NameStyle

open Text (IsAscii)

variable {c : Char} {name : List Char}

/-- Behind the first letter a name is the same in camel case and in Pascal case. -/
theorem convert_cons {rest : List Char} (ascii : IsAscii (c :: rest)) (begins : c ≠ '_') :
    ∃ later, '_' ∉ c.toLower :: later ∧ '_' ∉ c.toUpper :: later ∧ toCamel (c :: rest) = c.toLower :: later ∧
      toPascal (c :: rest) = c.toUpper :: later := by
  have first := ascii c mem_cons_self
  suffices ∃ later, '_' ∉ later ∧ toCamel (c :: rest) = c.toLower :: later ∧
      toPascal (c :: rest) = c.toUpper :: later by
    obtain ⟨later, none, same⟩ := this
    have changed := (Text.changed_of_ascii first).2.2 begins
    exact ⟨later, by grind, by grind, same⟩
  by_cases several : '_' ∈ rest
  · obtain ⟨part, parts, split⟩ := Text.splitAt_cons_of_ne begins rest
    have inParts : ∀ part ∈ Text.splitAt '_' (c :: rest), IsAscii part ∧ '_' ∉ part := fun part mem =>
      ⟨fun d inPart => ascii d ((Text.of_mem_splitAt mem).2 inPart), (Text.of_mem_splitAt mem).1⟩
    rw [split, forall_mem_cons] at inParts
    obtain ⟨⟨inPart, none⟩, others⟩ := inParts
    refine ⟨part.map Char.toLower ++ parts.flatMap Text.capitalize, ?_, ?_, ?_⟩
    · have lower := (Text.underscore_notMem_changed inPart none).1
      simp only [mem_append, mem_flatMap, not_or, not_exists, not_and]
      exact ⟨fun mem => lower (mem_cons_of_mem _ mem), fun part mem =>
        (Text.underscore_notMem_changed (others part mem).1 (others part mem).2).2⟩
    · simp [toCamel, several, split, Text.toLower, Text.lowerAfter_of_ascii inPart]
    · simp [toPascal, several, split, Text.capitalize_of_ascii inPart]
  · have single : IsAscii [c] := by simpa [IsAscii] using first
    refine ⟨rest, several, ?_, ?_⟩
    · simp [toCamel, several, begins.symm, Text.toLower, Text.lowerAfter_of_ascii single]
    · simp [toPascal, several, begins.symm, Text.toUpper, (Text.case_of_ascii first).2.2.2.1]

theorem isAscii_eq (c : Char) :
    isAsciiLower c = c.isLower ∧ isAsciiUpper c = c.isUpper ∧ isAsciiDigit c = c.isDigit := by
  simp [isAsciiLower, isAsciiUpper, isAsciiDigit, Char.isLower, Char.isUpper, Char.isDigit, Char.le_def]

/-- What becomes of a character in snake case. -/
def spread (c : Char) : List Char := if c.isUpper then ['_', c.toLower] else [c]

theorem toSnake_eq (ascii : IsAscii name) : toSnake name = (name.flatMap spread).dropWhile (· == '_') := by
  have apart : IsAscii (name.flatMap fun c => if c.isUpper then ['_', c] else [c]) := by
    intro d inSpread
    obtain ⟨c, inName, isIn⟩ := mem_flatMap.mp inSpread
    split at isIn
    · rcases mem_pair.mp isIn with rfl | rfl
      · decide
      · exact ascii d inName
    · exact mem_singleton.mp isIn ▸ ascii c inName
  have lower (c : Char) : (if c.isUpper = true then ['_', c] else [c]).map Char.toLower = spread c := by
    unfold spread
    split
    · rfl
    · simp [Char.toLower_eq_of_not_isUpper ‹_›]
  simp only [toSnake, isAscii_eq, Text.toLower, Text.lowerAfter_of_ascii apart, map_flatMap, lower]

theorem mem_toSnake (ascii : IsAscii name) (mem : c ∈ toSnake name) :
    c.toNat < 128 ∧ c.isUpper = false := by
  rw [toSnake_eq ascii] at mem
  obtain ⟨d, inName, isIn⟩ := mem_flatMap.mp (dropWhile_subset _ mem)
  unfold spread at isIn
  split at isIn
  · rcases mem_pair.mp isIn with rfl | rfl
    · decide
    · exact ⟨(Text.changed_of_ascii (ascii d inName)).1, Char.isUpper_toLower_eq_false d⟩
  · obtain rfl := mem_singleton.mp isIn
    exact ⟨ascii c inName, eq_false_of_ne_true ‹_›⟩

end NameStyle

end GrammarLint
