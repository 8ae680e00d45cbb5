import GrammarLint.Proofs.RuleNameAdvice

open List

namespace GrammarLint.NameStyle

open Text (IsAscii)

variable {c : Char} {name rest text : List Char}

theorem toSnake_cons (ascii : IsAscii (c :: rest)) (lower : c.isLower = true) :
    toSnake (c :: rest) = c :: rest.flatMap spread := by
  have begins : c ≠ '_' := by
    rintro rfl
    cases lower
  have here : spread c = [c] := if_neg (Char.not_isUpper_of_isLower lower)
  simp [toSnake_eq ascii, here, begins]

theorem body_append {stop : List Char} (isStop : stop = [] ∨ stop = ['\n']) (free : '\n' ∉ text) :
    body (text ++ stop) = text := by
  rcases isStop with rfl | rfl
  · rw [append_nil, body, if_neg]
    exact fun last => free (mem_of_getLast? (beq_iff_eq.mp last))
  · simp [body]

/-- The words of a name in snake case, joined again, make up the name. -/
theorem splitAt_spread (ascii : IsAscii rest) (none : '_' ∉ rest) : ∃ part parts,
    Text.splitAt '_' (rest.flatMap spread) = part :: parts ∧ IsAscii part ∧ part.map Char.toLower = part ∧
      part ++ parts.flatMap Text.capitalize = rest := by
  induction rest with
  | nil => exact ⟨[], [], rfl, by simp [IsAscii], rfl, rfl⟩
  | cons c rest ih =>
    obtain ⟨here, later⟩ := forall_mem_cons.mp ascii
    obtain ⟨begins, behind⟩ : '_' ≠ c ∧ '_' ∉ rest := by simpa using none
    obtain ⟨part, parts, split, inPart, lower, joined⟩ := ih later behind
    by_cases upper : c.isUpper = true
    · -- A capital begins a word, and its capital letter is itself.
      have small : IsAscii (c.toLower :: part) := forall_mem_cons.mpr ⟨(Text.changed_of_ascii here).1, inPart⟩
      have back : c.toUpper = c := Char.toUpper_eq_of_not_isLower (Char.not_isLower_of_isUpper upper)
      have inWord := ((Text.changed_of_ascii here).2.2 begins.symm).1
      refine ⟨[], (c.toLower :: part) :: parts, ?_, by simp [IsAscii], rfl, ?_⟩
      · simp [spread, upper, Text.splitAt, inWord, split]
      · simp [Text.capitalize_of_ascii small, lower, back, joined]
    · refine ⟨c :: part, parts, ?_, forall_mem_cons.mpr ⟨here, inPart⟩, ?_, by simp [joined]⟩
      · simp [spread, upper, Text.splitAt, begins.symm, split]
      · simp [Char.toLower_eq_of_not_isUpper upper, lower]

/-- A part of a name in snake case: a small letter, then small letters and digits. -/
def IsPart (part : List Char) : Prop :=
  ∃ c rest, part = c :: rest ∧ c.isLower = true ∧ ∀ d ∈ rest, d.isLower = true ∨ d.isDigit = true

theorem mem_spread {d : Char} (letter : c.isAlphanum = true) (mem : d ∈ spread c) :
    d.isLower = true ∨ d.isDigit = true ∨ d = '_' := by
  unfold spread at mem
  split at mem
  · rename_i upper
    rcases mem_pair.mp mem with rfl | rfl
    · exact .inr (.inr rfl)
    · exact .inl (by simp [Char.isLower_toLower_eq_isAlpha, Char.isAlpha, upper])
  · grind [Char.isAlphanum, Char.isAlpha]

/-- Back from snake case. -/
theorem toCamel_spread (ascii : IsAscii (c :: rest)) (lower : c.isLower = true) (none : '_' ∉ rest)
    (several : ∃ d ∈ rest, d.isUpper = true) : toCamel (c :: rest.flatMap spread) = c :: rest := by
  obtain ⟨part, parts, split, inPart, isLow, joined⟩ := splitAt_spread (forall_mem_cons.mp ascii).2 none
  obtain ⟨d, inRest, upper⟩ := several
  have apart : '_' ∈ rest.flatMap spread := mem_flatMap.mpr ⟨d, inRest, by simp [spread, upper]⟩
  have begins : c ≠ '_' := by
    rintro rfl
    cases lower
  have small : IsAscii (c :: part) := forall_mem_cons.mpr ⟨ascii c mem_cons_self, inPart⟩
  have stays : c.toLower = c := Char.toLower_eq_of_not_isUpper (Char.not_isUpper_of_isLower lower)
  simp [toCamel, apart, Text.splitAt, begins, split, Text.toLower, Text.lowerAfter_of_ascii small, stays, isLow, joined]

/-- The way to snake case and back, for the names in camel case. -/
theorem toSnake_of_camel (camel : isRuleCamel name = true) :
    isRuleSnake (toSnake name) = true ∧ toCamel (toSnake name) = name := by
  obtain ⟨c, rest, isBody, lower, letters, several⟩ := isRuleCamel_iff.mp camel
  obtain ⟨stop, isStop, isName⟩ := body_stop name
  obtain ⟨first, _, rfl, -, ascii⟩ := isPlain_of_styled (.inl camel)
  rw [isBody, cons_append, cons.injEq] at isName
  obtain ⟨rfl, rfl⟩ := isName
  have isSnake := toSnake_cons ascii lower
  constructor
  · have parts : ∀ d ∈ rest.flatMap spread, d.isLower = true ∨ d.isDigit = true ∨ d = '_' := by
      intro d mem
      obtain ⟨e, inRest, isIn⟩ := mem_flatMap.mp mem
      exact mem_spread (letters e inRest) isIn
    have free : '\n' ∉ first :: rest.flatMap spread := by
      rw [mem_cons, not_or]
      refine ⟨?_, fun mem => absurd (parts _ mem) (by decide)⟩
      rintro rfl
      cases lower
    have same : stop.flatMap spread = stop := by
      rcases isStop with rfl | rfl <;> rfl
    refine isRuleSnake_iff.mpr ⟨first, rest.flatMap spread, ?_, lower, parts, ?_⟩
    · rw [isSnake, flatMap_append, same, ← cons_append, body_append isStop free]
    · obtain ⟨d, inRest, upper⟩ := several
      exact mem_flatMap.mpr ⟨d, inRest, by simp [spread, upper]⟩
  · have whole : '_' ∉ rest ++ stop := by
      rw [mem_append, not_or]
      refine ⟨fun mem => absurd (letters _ mem) (by decide), ?_⟩
      rcases isStop with rfl | rfl <;> decide
    rw [isSnake, toCamel_spread ascii lower whole]
    exact several.imp fun d has => ⟨mem_append_left _ has.1, has.2⟩

theorem small_stays (small : ∀ d ∈ text, d.isLower = true ∨ d.isDigit = true) :
    text.map Char.toLower = text ∧ text.flatMap spread = text := by
  have plain : ∀ d ∈ text, ¬d.isUpper = true := by
    intro d mem
    rcases small d mem with lower | digit
    · exact Char.not_isUpper_of_isLower lower
    · simp only [Char.isDigit, Char.isUpper, Bool.and_eq_true, decide_eq_true_eq, UInt32.le_iff_toNat_le,
        ge_iff_le] at digit ⊢
      have codes : '9'.val.toNat = 57 ∧ 'A'.val.toNat = 65 := ⟨rfl, rfl⟩
      omega
  exact ⟨(map_congr_left fun d mem => Char.toLower_eq_of_not_isUpper (plain d mem)).trans text.map_id,
    (flatMap_congr fun d mem => if_neg (plain d mem)).trans text.flatMap_singleton'⟩

/-- A part with a capital becomes the part behind an underscore. -/
theorem spread_capitalize {part : List Char} (isPart : IsPart part) :
    (∀ d ∈ Text.capitalize part, d.isAlphanum = true) ∧ (∃ d ∈ Text.capitalize part, d.isUpper = true) ∧
    (Text.capitalize part).flatMap spread = '_' :: part := by
  obtain ⟨c, rest, rfl, lower, small⟩ := isPart
  have letters : ∀ d ∈ c :: rest, d.isAlphanum = true := by grind [Char.isAlphanum, Char.isAlpha]
  have upper : c.toUpper.isUpper = true := by simp [Char.isAlpha, lower]
  have stays : c.toLower = c := Char.toLower_eq_of_not_isUpper (Char.not_isUpper_of_isLower lower)
  rw [Text.capitalize_of_ascii fun d mem => Text.toNat_lt_of_isAlphanum (.inl (letters d mem)),
    (small_stays small).1]
  refine ⟨?_, ⟨_, mem_cons_self, upper⟩, ?_⟩
  · grind [Char.isAlphanum, Char.isAlpha]
  · simp [spread, upper, (small_stays small).2, stays]

/-- The parts of a name with underscores between them. -/
def joined (first : List Char) (parts : List (List Char)) : List Char := first ++ parts.flatMap ('_' :: ·)

theorem toCamel_of_parts {first : List Char} {parts : List (List Char)} (isFirst : IsPart first)
    (areParts : ∀ part ∈ parts, IsPart part) (several : parts ≠ []) :
    isRuleCamel (toCamel (joined first parts)) = true ∧
      toSnake (toCamel (joined first parts)) = joined first parts := by
  obtain ⟨c, rest, rfl, lower, small⟩ := isFirst
  -- The name in camel case is guessed, and the way to snake case shows that it is the right one.
  let camel := c :: (rest ++ parts.flatMap Text.capitalize)
  have letters : ∀ d ∈ camel, d.isAlphanum = true := by
    rw [forall_mem_cons, forall_mem_append, forall_mem_flatMap]
    refine ⟨?_, ?_, fun part mem => (spread_capitalize (areParts part mem)).1⟩ <;>
      grind [Char.isAlphanum, Char.isAlpha]
  have isCamel : isRuleCamel camel = true := by
    have free : '\n' ∉ camel := fun mem => absurd (letters _ mem) (by decide)
    obtain ⟨part, mem⟩ := exists_mem_of_ne_nil _ several
    obtain ⟨d, inPart, upper⟩ := (spread_capitalize (areParts part mem)).2.1
    refine isRuleCamel_iff.mpr ⟨c, _, ?_, lower, (forall_mem_cons.mp letters).2, d, ?_, upper⟩
    · simpa using body_append (.inl rfl) free
    · exact mem_append_right _ (mem_flatMap.mpr ⟨part, mem, inPart⟩)
  have isSnake : toSnake camel = joined (c :: rest) parts := by
    rw [toSnake_cons (fun d mem => Text.toNat_lt_of_isAlphanum (.inl (letters d mem))) lower, flatMap_append,
      flatMap_assoc, flatMap_congr fun part mem => (spread_capitalize (areParts part mem)).2.2,
      (small_stays small).2]
    rfl
  have back := (toSnake_of_camel isCamel).2
  rw [isSnake] at back
  rw [back]
  exact ⟨isCamel, isSnake⟩

/-- The two changes of case undo each other: on the names in camel case, of which no two become the same name, and
on the names made of several parts with single underscores between them. -/
theorem camel_snake_inverse :
    (∀ name, isRuleCamel name = true → isRuleSnake (toSnake name) = true ∧ toCamel (toSnake name) = name) ∧
    (∀ a b, isRuleCamel a = true → isRuleCamel b = true → toSnake a = toSnake b → a = b) ∧
    ∀ first parts, IsPart first → (∀ part ∈ parts, IsPart part) → parts ≠ [] →
      isRuleCamel (toCamel (joined first parts)) = true ∧
        toSnake (toCamel (joined first parts)) = joined first parts := by
  refine ⟨fun name => toSnake_of_camel, ?_, fun first parts => toCamel_of_parts⟩
  intro a b camelA camelB same
  rw [← (toSnake_of_camel camelA).2, same, (toSnake_of_camel camelB).2]

/-- A run of capitals, a digit before one and a capital at the end, there and back. -/
theorem camel_snake_inverse_capitals : isRuleCamel "xHTTP2B".toList = true ∧
    toSnake "xHTTP2B".toList = "x_h_t_t_p2_b".toList ∧ toCamel "x_h_t_t_p2_b".toList = "xHTTP2B".toList := by
  have camel : isRuleCamel "xHTTP2B".toList = true := by decide +kernel
  have snake : toSnake "xHTTP2B".toList = "x_h_t_t_p2_b".toList := by decide +kernel
  exact ⟨camel, snake, snake ▸ (camel_snake_inverse.1 _ camel).2⟩

end GrammarLint.NameStyle
