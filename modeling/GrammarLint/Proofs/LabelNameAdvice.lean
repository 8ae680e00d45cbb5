import GrammarLint.Proofs.NameConversion
import GrammarLint.Proofs.SharedLiterals

open List

namespace GrammarLint

/-- A letter of ASCII, then letters, digits and underscores. -/
def IsIdentifier (label : String) : Prop :=
  ∃ c rest, label.toList = c :: rest ∧ c.isAlpha = true ∧ ∀ d ∈ rest, d.isAlphanum = true ∨ d = '_'

/-- The grammar with other labels in its parser rules. -/
def Grammar.relabel (change : String → String) (g : Grammar) : Grammar :=
  g.withRules <| g.rules.map fun r => if r.isLexer then r else
    { r with alternatives := r.alternatives.map fun a => { a with label := a.label.map change } }

namespace Check

open NameStyle

variable {label : String} {style : NameStyle}

/-- What a label becomes in another style is in that style or in none. -/
theorem labelStyle?_convert (identifier : IsIdentifier label) {target : NameStyle}
    (styled : labelStyle? (target.convert label) = some style) : style = target := by
  obtain ⟨c, rest, chars, letter, letters⟩ := identifier
  have ascii : Text.IsAscii (c :: rest) := forall_mem_cons.mpr
    ⟨Text.toNat_lt_of_isAlphanum (.inl (by simp [Char.isAlphanum, letter])), fun d mem =>
      Text.toNat_lt_of_isAlphanum (letters d mem)⟩
  have begins : c ≠ '_' := by
    rintro rfl
    cases letter
  obtain ⟨toLower, toUpper, -⟩ := Text.changed_of_ascii (ascii c mem_cons_self)
  obtain ⟨later, noneCamel, nonePascal, isCamel, isPascal⟩ := convert_cons ascii begins
  unfold labelStyle? at styled
  cases target with
  | camelCase =>
    have small : Text.isUpper c.toLower = false := by
      rw [(Text.case_of_ascii toLower).2.1, Char.isUpper_toLower_eq_false]
    have others : isLabelSnake (c.toLower :: later) = false ∧ isLabelPascal (c.toLower :: later) = false := by
      simp [isLabelSnake, isLabelPascal, noneCamel, small]
    simp_all [convert]
  | snakeCase =>
    have small : ∀ d ∈ toSnake (c :: rest), Text.isUpper d = false := fun d mem => by
      obtain ⟨within, small⟩ := mem_toSnake ascii mem
      rw [(Text.case_of_ascii within).2.1, small]
    have others : isLabelCamel (toSnake (c :: rest)) = false ∧ isLabelPascal (toSnake (c :: rest)) = false := by
      cases new : toSnake (c :: rest) with
      | nil => exact ⟨rfl, rfl⟩
      | cons d later =>
        simp_all [isLabelCamel, isLabelPascal]
    simp_all [convert]
  | pascalCase =>
    have large : Text.isLower c.toUpper = false := by
      rw [(Text.case_of_ascii toUpper).1, Char.isLower_toUpper_eq_false]
    have others : isLabelSnake (c.toUpper :: later) = false ∧ isLabelCamel (c.toUpper :: later) = false := by
      simp [isLabelSnake, isLabelCamel, nonePascal, large]
    simp_all [convert]

def labelLead? (g : Grammar) : Option NameStyle := dominant (labelGroups ((labelUses g).map (·.label)))

def straysInLabel (g : Grammar) (label : String) : Bool :=
  (labelStyle? label).isSome && labelStyle? label != labelLead? g

def properLabel (g : Grammar) (label : String) : String := ((labelLead? g).map (·.convert label)).getD label

/-- The report of a label, with the label that it proposes. -/
def labelIssue (g : Grammar) (config : RuleConfig) (label : String) : Issue :=
  let style := ((labelLead? g).map NameStyle.name).getD ""
  let better := properLabel g label
  .of "L002" g config (((labelUses g).reverse.find? (·.label == label)).bind LabelUse.range)
    s!"Label '{label}' doesn't follow dominant {style} convention"
    s!"Rename to '{better}'" s!"Change #{label} to #{better}"

variable {g : Grammar} {labels : List String}

theorem mem_labelGroups {group : NameStyle × List String} : group ∈ labelGroups labels ↔
    group.2 = labels.filter (labelStyle? · == some group.1) ∧ group.2 ≠ [] := by
  simp only [labelGroups, mem_filter, mem_map, mem_cons, not_mem_nil, or_false]
  constructor
  · rintro ⟨⟨style, -, rfl⟩, some⟩
    exact ⟨rfl, by simpa using some⟩
  · rintro ⟨same, some⟩
    exact ⟨⟨group.1, by cases group.1 <;> simp, by rw [← same]⟩, by simpa using some⟩

theorem dominant_mem {groups : List (NameStyle × List String)}
    (leads : dominant groups = some style) : ∃ group ∈ groups, group.1 = style := by
  cases groups with
  | nil => cases leads
  | cons first rest =>
    refine ⟨_, ?_, Option.some.inj leads⟩
    clear leads
    induction rest generalizing first with
    | nil => exact mem_cons_self
    | cons second rest ih =>
      rw [foldl_cons]
      split
      · exact mem_cons_of_mem _ (ih second)
      · exact cons_subset_cons first (subset_cons_self ..) (ih first)

theorem mem_labels : label ∈ (labelUses g).map (·.label) ↔
    ∃ r ∈ g.rules, r.isLexer = false ∧ ∃ a ∈ r.alternatives, a.label = some label ∧ label.isEmpty = false := by
  simp only [labelUses, Grammar.parserRules, Alternative.label?, mem_map, mem_flatMap, mem_filter,
    mem_filterMap, Option.map_eq_some_iff, Option.filter_eq_some_iff, Bool.not_eq_true']
  constructor
  · rintro ⟨_, ⟨r, ⟨mem, parser⟩, a, isAlternative, label, named, rfl⟩, rfl⟩
    exact ⟨r, mem, parser, a, isAlternative, named⟩
  · rintro ⟨r, mem, parser, a, isAlternative, named⟩
    exact ⟨⟨label, r, a⟩, ⟨r, ⟨mem, parser⟩, a, isAlternative, label, named, rfl⟩, rfl⟩

theorem labels_relabel {change : String → String} (empty : change "" = "")
    (mem : label ∈ (labelUses (g.relabel change)).map (·.label)) :
    ∃ old ∈ (labelUses g).map (·.label), change old = label := by
  obtain ⟨_, isRule, parser, a, isAlternative, named, nonempty⟩ := mem_labels.mp mem
  obtain ⟨r, inRules, rfl⟩ := mem_map.mp isRule
  split at parser
  · simp_all
  · rename_i parserRule
    rw [if_neg parserRule] at isAlternative
    obtain ⟨before, inRule, rfl⟩ := mem_map.mp isAlternative
    obtain ⟨old, wasNamed, rfl⟩ := Option.map_eq_some_iff.mp named
    refine ⟨old, mem_labels.mpr ⟨r, inRules, parser, before, inRule, wasNamed, ?_⟩, rfl⟩
    rw [Bool.eq_false_iff, ne_eq, String.isEmpty_iff]
    rintro rfl
    simp [empty] at nonempty

/-- Each style of a label has its group. -/
theorem group_of_styled (mem : label ∈ labels)
    (styled : labelStyle? label = some style) :
    (style, labels.filter (labelStyle? · == some style)) ∈ labelGroups labels :=
  mem_labelGroups.mpr ⟨rfl, ne_nil_of_mem (mem_filter.mpr ⟨mem, beq_iff_eq.mpr styled⟩)⟩

theorem labelStyle?_of_leaderless (leads : labelLead? g = none)
    (mem : label ∈ (labelUses g).map (·.label)) : labelStyle? label = none := by
  cases styled : labelStyle? label with
  | none => rfl
  | some style =>
    have inGroups := group_of_styled mem styled
    unfold labelLead? at leads
    cases groups : labelGroups ((labelUses g).map (·.label)) with
    | nil => exact absurd (groups ▸ inGroups) not_mem_nil
    | cons first rest =>
      rw [groups] at leads
      cases leads

/-- The reports are those of the labels that stray, one for each of their uses. -/
theorem labelNameStyle_run (g : Grammar) (config : RuleConfig) :
    ∃ issues, labelNameStyle.run g config = .ok issues ∧
      issues.Perm ((((labelUses g).map (·.label)).filter (straysInLabel g)).map (labelIssue g config)) := by
  set labels := (labelUses g).map (·.label) with isLabels
  cases leads : labelLead? g with
  | none =>
    have nothing : labels.filter (straysInLabel g) = [] := filter_eq_nil_iff.mpr fun label mem => by
      simp [straysInLabel, labelStyle?_of_leaderless leads mem]
    refine ⟨[], ?_, by rw [nothing]; exact .nil⟩
    simp only [labelNameStyle, ← isLabels]
    rw [show dominant (labelGroups labels) = none from leads]
  | some style =>
    refine ⟨((labelGroups labels).filter (·.1 != style)).flatMap fun group => group.2.map (labelIssue g config), ?_, ?_⟩
    · simp only [labelNameStyle, ← isLabels]
      rw [show dominant (labelGroups labels) = some style from leads]
      refine congrArg Except.ok (flatMap_congr fun group _ => map_congr_left fun label _ => ?_)
      simp [labelIssue, properLabel, leads, Option.map_some, Option.getD_some]
    · -- The groups of other styles hold the labels that stray, each once.
      have grouped : ((labelGroups labels).filter (·.1 != style)).flatMap (·.2) =
          (((labelGroups labels).filter (·.1 != style)).map (some ·.1)).flatMap fun key =>
            (labels.filter (straysInLabel g)).filter (labelStyle? · == key) := by
        rw [flatMap_map]
        refine flatMap_congr fun group mem => ?_
        obtain ⟨inGroups, other⟩ := mem_filter.mp mem
        rw [(mem_labelGroups.mp inGroups).1, filter_filter]
        refine filter_congr fun label _ => ?_
        by_cases here : labelStyle? label = some group.1 <;> simp_all [straysInLabel]
      have apart : (((labelGroups labels).filter (·.1 != style)).map (some ·.1)).Nodup := by
        refine .sublist (.map _ filter_sublist) ?_
        exact .sublist (.map _ filter_sublist) (by simp)
      rw [← map_flatMap, grouped]
      refine (flatMap_filter_perm labelStyle? apart fun label mem => ?_).map _
      obtain ⟨isLabel, stray⟩ := mem_filter.mp mem
      simp only [straysInLabel, leads, Bool.and_eq_true, Option.isSome_iff_exists, bne_iff_ne] at stray
      obtain ⟨⟨other, styled⟩, differs⟩ := stray
      rw [styled]
      exact mem_map.mpr ⟨_, mem_filter.mpr ⟨group_of_styled isLabel styled, by simp_all⟩, rfl⟩

/-- Where all labels that have a style are in the same one, nothing is reported. -/
theorem labelNameStyle_uniform (style : NameStyle) (config : RuleConfig)
    (uniform : ∀ label ∈ (labelUses g).map (·.label), ∀ s, labelStyle? label = some s → s = style) :
    labelNameStyle.run g config = .ok [] := by
  have groups : ∀ group ∈ labelGroups ((labelUses g).map (·.label)), group.1 = style := by
    intro group mem
    obtain ⟨same, some⟩ := mem_labelGroups.mp mem
    obtain ⟨label, inGroup⟩ := exists_mem_of_ne_nil _ some
    obtain ⟨isLabel, styled⟩ := mem_filter.mp (same ▸ inGroup)
    exact uniform label isLabel _ (beq_iff_eq.mp styled)
  simp only [labelNameStyle]
  cases leads : dominant (labelGroups ((labelUses g).map (·.label))) with
  | none => rfl
  | some s =>
    obtain ⟨group, mem, rfl⟩ := dominant_mem leads
    have nothing : (labelGroups ((labelUses g).map (·.label))).filter (·.1 != group.1) = [] :=
      filter_eq_nil_iff.mpr fun other inGroups => by simp [groups other inGroups, groups group mem]
    simp [nothing, flatMap_nil]

/-- The labels that are reported are those that stray from the style of most of them, and when each of them is
replaced everywhere by the label that its report proposes, nothing is reported. -/
theorem labelNameStyle_settled (g : Grammar) (config : RuleConfig)
    (identifiers : ∀ label ∈ (labelUses g).map (·.label), IsIdentifier label) :
    (∃ issues, labelNameStyle.run g config = .ok issues ∧
      issues.Perm ((((labelUses g).map (·.label)).filter (straysInLabel g)).map (labelIssue g config))) ∧
    labelNameStyle.run (g.relabel fun label => if straysInLabel g label then properLabel g label else label) config =
      .ok [] := by
  refine ⟨labelNameStyle_run g config, ?_⟩
  have empty : labelStyle? "" = none := by decide +kernel
  refine labelNameStyle_uniform ((labelLead? g).getD .camelCase) config fun label member s styled => ?_
  obtain ⟨old, wasLabel, rfl⟩ := labels_relabel (by simp [straysInLabel, empty]) member
  cases leads : labelLead? g with
  | none => simp [straysInLabel, labelStyle?_of_leaderless leads wasLabel] at styled
  | some style =>
    rw [Option.getD_some]
    split at styled
    · simp only [properLabel, leads, Option.map_some, Option.getD_some] at styled
      exact labelStyle?_convert (identifiers old wasLabel) styled
    · rename_i stays
      simpa [straysInLabel, styled, leads] using stays

def mixedLabels : Grammar :=
  let labeled (label : String) : Alternative := ⟨[], some label, none⟩
  ⟨"G.g4", .parser, "G", none,
    [⟨"r", false, false, none, none, [labeled "aB", labeled "do_it_", labeled "Go", labeled "x2Y"]⟩]⟩

theorem labelNameStyle_settled_mixedLabels :
    (((labelUses mixedLabels).map (·.label)).filter (straysInLabel mixedLabels)).map (properLabel mixedLabels) =
      ["doIt", "go"] ∧
    labelNameStyle.run (mixedLabels.relabel fun label =>
      if straysInLabel mixedLabels label then properLabel mixedLabels label else label) {} = .ok [] := by
  refine ⟨by decide +kernel, (labelNameStyle_settled mixedLabels {} ?_).2⟩
  have labels : (labelUses mixedLabels).map (·.label) = ["aB", "do_it_", "Go", "x2Y"] := by decide +kernel
  simp [labels, IsIdentifier]

end Check

end GrammarLint
