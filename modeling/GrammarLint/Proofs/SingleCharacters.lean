import GrammarLint.Check.Patterns
import GrammarLint.Proofs.WrittenFiles

open List

namespace GrammarLint

theorem Text.length_splitAt {α : Type} [BEq α] (separator : α) (text : List α) :
    (splitAt separator text).length = text.count separator + 1 := by
  induction text with
  | nil => rfl
  | cons c rest ih =>
    rw [splitAt, count_cons]
    split
    · rw [length_cons, ih]
    · split
      · simp_all
      · simp_all

namespace Check

def slowAlternation : Inefficiency :=
  ⟨"inefficient alternation pattern", "Use character class [a-h] instead of (a|b|c|d|e|f|g|h)"⟩

/-- Characters in quotes with bars between them. -/
def alternation (cs : List Char) : List Char := ['|'].intercalate (cs.map fun c => ['\'', c, '\''])

variable {text cs : List Char}

theorem slowAlternation_mem : slowAlternation ∈ textInefficiencies text ↔
    5 < text.count '|' ∧ ∀ part ∈ Text.splitAt '|' text, isSingle part = true := by
  simp only [textInefficiencies, mem_append]
  simp [slowAlternation]

theorem splitAt_alternation (some : cs ≠ []) (apart : '|' ∉ cs) :
    Text.splitAt '|' (alternation cs) = cs.map fun c => ['\'', c, '\''] := by
  rw [Text.splitAt_eq_splitOn, alternation, splitOn_intercalate]
  · simp only [forall_mem_map, mem_cons, not_mem_nil, or_false]
    rintro c mem (quote | rfl | quote)
    · cases quote
    · exact apart mem
    · cases quote
  · simpa using some

/-- Enough characters, none of them a bar. -/
def IsLong (cs : List Char) : Prop := 7 ≤ cs.length ∧ '|' ∉ cs

theorem slowAlternation_mem_alternation (long : IsLong cs) :
    slowAlternation ∈ textInefficiencies (alternation cs) := by
  obtain ⟨many, apart⟩ := long
  have some : cs ≠ [] := by
    rintro rfl
    simp at many
  have parts := splitAt_alternation some apart
  have bars := Text.length_splitAt '|' (alternation cs)
  rw [parts, length_map] at bars
  refine slowAlternation_mem.mpr ⟨by omega, ?_⟩
  simp [parts, isSingle]

def alternationBlock (cs suffix : List Char) : List Char := '(' :: (alternation cs ++ ')' :: suffix)

/-- The opening parenthesis stays with the quotes of the first character. -/
theorem slowAlternation_not_mem_block (long : IsLong cs) (suffix : List Char) :
    slowAlternation ∉ textInefficiencies (alternationBlock cs suffix) := by
  obtain ⟨many, apart⟩ := long
  rcases cs with - | ⟨c, - | ⟨d, cs⟩⟩
  · simp at many
  · simp at many
  · have other : ¬c = '|' := fun same => apart (by simp [same])
    have first : ['(', '\'', c, '\''] ∈ Text.splitAt '|' (alternationBlock (c :: d :: cs) suffix) := by
      simp [alternationBlock, alternation, Text.splitAt, other]
    intro found
    exact Bool.noConfusion ((slowAlternation_mem.mp found).2 _ first)

/-- Seven or more characters in quotes with bars between them are told to be a slow alternation where they
stand alone, but never as a block, with or without a suffix. -/
theorem slowAlternation_found_bare (r : Rule) :
    ((∃ e ∈ r.elements, ∃ cs, IsLong cs ∧ e.text.toList = alternation cs) →
      slowAlternation ∈ inefficiencies r) ∧
    ((∀ e ∈ r.elements, ∃ cs suffix, IsLong cs ∧ e.text.toList = alternationBlock cs suffix) →
      slowAlternation ∉ inefficiencies r) := by
  simp only [inefficiencies, mem_flatMap, not_exists, not_and]
  constructor
  · rintro ⟨e, member, cs, long, text⟩
    exact ⟨e, member, text ▸ slowAlternation_mem_alternation long⟩
  · intro blocks e member
    obtain ⟨cs, suffix, long, text⟩ := blocks e member
    exact text ▸ slowAlternation_not_mem_block long suffix

def oneElement (text : List Char) : Rule :=
  ⟨"A", true, false, none, none, [⟨[⟨.ofList text, none, none, .unknown⟩], none, none⟩]⟩

/-- The letters from a to g are not told to be a slow alternation. -/
theorem letters_overlooked :
    slowAlternation ∉ inefficiencies (oneElement "('a'|'b'|'c'|'d'|'e'|'f'|'g')".toList) := by
  decide +kernel

end Check

end GrammarLint
