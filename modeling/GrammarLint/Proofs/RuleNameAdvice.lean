import GrammarLint.Proofs.CheckLocality
import GrammarLint.Proofs.NameConversion

open List

namespace GrammarLint

namespace NameStyle

def IsPlain (name : List Char) : Prop := ∃ c rest, name = c :: rest ∧ c ≠ '_' ∧ Text.IsAscii (c :: rest)

variable {name : List Char}

theorem body_stop (name : List Char) : ∃ stop, (stop = [] ∨ stop = ['\n']) ∧ name = body name ++ stop := by
  unfold body
  split
  · rename_i last
    obtain ⟨front, rfl⟩ := getLast?_eq_some_iff.mp (beq_iff_eq.mp last)
    exact ⟨['\n'], .inr rfl, by simp⟩
  · exact ⟨[], .inl rfl, by simp⟩

theorem isRuleCamel_iff : isRuleCamel name = true ↔ ∃ c rest, body name = c :: rest ∧ c.isLower = true ∧
    (∀ d ∈ rest, d.isAlphanum = true) ∧ ∃ d ∈ rest, d.isUpper = true := by
  unfold isRuleCamel
  split
  · simp [*]
  · rename_i isBody
    simp only [isBody, isAscii_eq, Bool.and_eq_true, all_eq_true, any_eq_true, cons.injEq]
    grind [Char.isAlphanum, Char.isAlpha]

theorem isRuleSnake_iff : isRuleSnake name = true ↔ ∃ c rest, body name = c :: rest ∧ c.isLower = true ∧
    (∀ d ∈ rest, d.isLower = true ∨ d.isDigit = true ∨ d = '_') ∧ '_' ∈ rest := by
  unfold isRuleSnake
  split
  · simp [*]
  · rename_i isBody
    simp only [isBody, isAscii_eq, Bool.and_eq_true, all_eq_true, contains_iff_mem, cons.injEq]
    grind

/-- Names of rules in a style are in ASCII, with a letter first. -/
theorem isPlain_of_styled (styled : isRuleCamel name = true ∨ isRuleSnake name = true) : IsPlain name := by
  obtain ⟨c, rest, isBody, letter, letters⟩ : ∃ c rest, body name = c :: rest ∧ c.isLower = true ∧
      ∀ d ∈ rest, d.isAlphanum = true ∨ d = '_' := by
    rw [isRuleCamel_iff, isRuleSnake_iff] at styled
    grind [Char.isAlphanum, Char.isAlpha]
  obtain ⟨stop, isStop, isName⟩ := body_stop name
  refine ⟨c, rest ++ stop, by rw [isName, isBody, cons_append], ?_, ?_⟩
  · rintro rfl
    cases letter
  · refine forall_mem_cons.mpr ⟨Text.toNat_lt_of_isAlphanum (.inl ?_), forall_mem_append.mpr ⟨?_, ?_⟩⟩
    · simp [Char.isAlphanum, Char.isAlpha, letter]
    · exact fun d mem => Text.toNat_lt_of_isAlphanum (letters d mem)
    · rcases isStop with rfl | rfl <;> simp

/-- By what the two styles are told apart. -/
theorem sign_of_styled : (isRuleSnake name = true → '_' ∈ name) ∧
    (isRuleCamel name = true → ∃ c ∈ name, c.isUpper = true) := by
  obtain ⟨stop, -, isName⟩ := body_stop name
  rw [isRuleSnake_iff, isRuleCamel_iff]
  grind

end NameStyle

namespace Check

/-- The style of the name of a parser rule. -/
def ruleStyle? (r : Rule) : Option NameStyle :=
  if r.isLexer then none
  else if NameStyle.isRuleCamel r.name.toList then some .camelCase
  else if NameStyle.isRuleSnake r.name.toList then some .snakeCase
  else none

/-- The style of most names, or camel case if there are as many in the other one. -/
def leadingStyle (g : Grammar) : NameStyle :=
  if (g.rules.filter (ruleStyle? · == some .snakeCase)).length ≤
    (g.rules.filter (ruleStyle? · == some .camelCase)).length then .camelCase else .snakeCase

def strays (g : Grammar) (r : Rule) : Bool := (ruleStyle? r).any (· != leadingStyle g)

/-- The report of a rule, with the name that it proposes. -/
def nameIssue (g : Grammar) (config : RuleConfig) (r : Rule) : Issue :=
  let style := leadingStyle g
  .of "N003" g config r.range
    s!"Parser rule '{r.name}' doesn't follow the dominant {style.name} naming convention"
    s!"Rename to follow {style.name} convention" s!"Consider renaming to '{style.convert r.name}'"

def renamed (g : Grammar) (r : Rule) : Rule :=
  if strays g r then { r with name := (leadingStyle g).convert r.name } else r

variable {g : Grammar} {r : Rule} {style : NameStyle}

theorem ruleStyle?_eq_some (styled : ruleStyle? r = some style) :
    (style = .camelCase ∨ style = .snakeCase) ∧ NameStyle.IsPlain r.name.toList := by
  unfold ruleStyle? at styled
  split_ifs at styled with _ camel snake
  · exact ⟨.inl (Option.some.inj styled).symm, NameStyle.isPlain_of_styled (.inl camel)⟩
  · exact ⟨.inr (Option.some.inj styled).symm, NameStyle.isPlain_of_styled (.inr snake)⟩

theorem ruleStyles_eq (g : Grammar) : ruleStyles (g.parserRules.filter (!·.name.isEmpty)) =
    (g.rules.filter (ruleStyle? · == some .camelCase), g.rules.filter (ruleStyle? · == some .snakeCase)) := by
  have named (r : Rule) (empty : r.name.isEmpty = true) : ruleStyle? r = none := by
    simp [ruleStyle?, String.isEmpty_iff.mp empty, NameStyle.isRuleCamel, NameStyle.isRuleSnake, NameStyle.body]
  simp only [ruleStyles, Grammar.parserRules, filter_filter]
  refine Prod.ext (filter_congr fun r _ => ?_) (filter_congr fun r _ => ?_) <;>
  · cases empty : r.name.isEmpty with
    | true => simp [named r empty]
    | false =>
      unfold ruleStyle?
      cases r.isLexer <;> cases NameStyle.isRuleCamel r.name.toList <;>
        cases NameStyle.isRuleSnake r.name.toList <;> rfl

/-- Where all names that have a style are in the same one, none strays from it. -/
theorem strays_of_uniform (uniform : ∀ r ∈ g.rules, ∀ s, ruleStyle? r = some s → s = style) :
    g.rules.filter (strays g) = [] := by
  have others {s : NameStyle} (other : s ≠ style) : g.rules.filter (ruleStyle? · == some s) = [] :=
    filter_eq_nil_iff.mpr fun r mem styled => other (uniform r mem s (beq_iff_eq.mp styled))
  refine filter_eq_nil_iff.mpr fun r mem => ?_
  cases styled : ruleStyle? r with
  | none => simp [strays, styled]
  | some s =>
    obtain rfl := uniform r mem s styled
    have here : 0 < (g.rules.filter (ruleStyle? · == some s)).length :=
      length_pos_of_mem (mem_filter.mpr ⟨mem, beq_iff_eq.mpr styled⟩)
    have leads : leadingStyle g = s := by
      unfold leadingStyle
      rcases (ruleStyle?_eq_some styled).1 with rfl | rfl
      · simp [others (s := .snakeCase) nofun]
      · simp [others (s := .camelCase) nofun, Nat.pos_iff_ne_zero.mp here]
    simp [strays, styled, leads]

theorem ruleNameStyle_run (g : Grammar) (config : RuleConfig) :
    ruleNameStyle.run g config = .ok ((g.rules.filter (strays g)).map (nameIssue g config)) := by
  have two (r : Rule) : ruleStyle? r = none ∨ ruleStyle? r = some .camelCase ∨ ruleStyle? r = some .snakeCase := by
    cases styled : ruleStyle? r with
    | none => exact .inl rfl
    | some s => simpa using (ruleStyle?_eq_some styled).1
  simp only [ruleNameStyle, ruleStyles_eq, Bool.or_eq_true, List.isEmpty_iff]
  split
  · rename_i single
    have uniform : ∃ style, ∀ r ∈ g.rules, ∀ s, ruleStyle? r = some s → s = style := by
      simp only [filter_eq_nil_iff, beq_iff_eq] at single
      rcases single with none | none
      · exact ⟨.snakeCase, fun r member s styled => by grind⟩
      · exact ⟨.camelCase, fun r member s styled => by grind⟩
    obtain ⟨style, uniform⟩ := uniform
    rw [strays_of_uniform uniform]
    rfl
  · have strayIs : strays g = fun r => ruleStyle? r ==
        some (if leadingStyle g = .camelCase then .snakeCase else .camelCase) := by
      funext r
      rcases two r with styled | styled | styled <;> unfold strays leadingStyle <;> split <;> simp [styled]
    rw [strayIs]
    by_cases camel : (g.rules.filter (ruleStyle? · == some .snakeCase)).length ≤
        (g.rules.filter (ruleStyle? · == some .camelCase)).length
    · have leads : leadingStyle g = .camelCase := if_pos camel
      simp only [camel, leads, if_true]
      exact congrArg Except.ok (map_congr_left fun r _ => by simp [nameIssue, leads])
    · have leads : leadingStyle g = .snakeCase := if_neg camel
      simp only [camel, leads, if_false, reduceCtorEq]
      exact congrArg Except.ok (map_congr_left fun r _ => by simp [nameIssue, leads])

/-- A name in a proposed form is not in the other style. -/
theorem ruleStyle?_renamed (styled : ruleStyle? (renamed g r) = some style) :
    style = leadingStyle g := by
  unfold renamed at styled
  split at styled
  · rename_i stray
    obtain ⟨old, isStyled, -⟩ := (Option.any_eq_true ..).mp stray
    obtain ⟨c, rest, isName, begins, ascii⟩ := (ruleStyle?_eq_some isStyled).2
    have two : leadingStyle g = .camelCase ∨ leadingStyle g = .snakeCase := by
      unfold leadingStyle
      split <;> simp
    rcases two with leads | leads
    · obtain ⟨later, none, -, isCamel, -⟩ := NameStyle.convert_cons ascii begins
      have notSnake := fun snake => none (isCamel ▸ NameStyle.sign_of_styled.1 snake)
      simp_all [ruleStyle?, NameStyle.convert]
    · have notCamel : ¬NameStyle.isRuleCamel (NameStyle.toSnake (c :: rest)) = true := fun camel => by
        obtain ⟨d, mem, upper⟩ := NameStyle.sign_of_styled.2 camel
        simp [(NameStyle.mem_toSnake ascii mem).2] at upper
      simp_all [ruleStyle?, NameStyle.convert]
  · rename_i stays
    simpa [strays, styled] using stays

/-- The rules that are reported are those whose names stray from the leading style, and when each of them has
the name that its report proposes, nothing is reported. -/
theorem ruleNameStyle_settled (g : Grammar) (config : RuleConfig) :
    ruleNameStyle.run g config = .ok ((g.rules.filter (strays g)).map (nameIssue g config)) ∧
    ruleNameStyle.run (g.withRules (g.rules.map (renamed g))) config = .ok [] := by
  refine ⟨ruleNameStyle_run g config, ?_⟩
  have uniform : ∀ r ∈ (g.withRules (g.rules.map (renamed g))).rules, ∀ s, ruleStyle? r = some s →
      s = leadingStyle g := by
    intro _ member s styled
    obtain ⟨r, -, rfl⟩ := mem_map.mp member
    exact ruleStyle?_renamed styled
  rw [ruleNameStyle_run, strays_of_uniform uniform]
  rfl

end Check

end GrammarLint
