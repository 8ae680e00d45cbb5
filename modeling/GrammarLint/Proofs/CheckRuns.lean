import Mathlib
import GrammarLint.Check.All
import GrammarLint.Proofs.Outcomes

open List

namespace GrammarLint

open Json (Value)

def Rule.ranges (r : Rule) : List (Option Range) :=
  r.range :: r.alternatives.flatMap fun a => a.range :: a.elements.map (·.range)

/-- The ranges of the declaration of a grammar and of its rules with all their parts. -/
def Grammar.ranges (g : Grammar) : List (Option Range) := g.range :: g.rules.flatMap Rule.ranges

/-- Where the issues of a grammar may stand: at its declaration, at a rule, an element, or an alternative, or
at its rule where that has no range. -/
def Grammar.places (g : Grammar) : List (Option Range) :=
  g.range :: g.rules.flatMap fun r =>
    r.range :: (r.alternatives.map (·.range.or r.range) ++ r.elements.map (·.range))

namespace Grammar

variable {g : Grammar} {r : Rule}

theorem declaration_range : g.range ∈ g.places := mem_cons_self

theorem rule_range (mem : r ∈ g.rules) : r.range ∈ g.places :=
  mem_cons_of_mem _ (mem_flatMap.mpr ⟨r, mem, mem_cons_self⟩)

theorem element_range {e : Element} (mem : r ∈ g.rules) (inside : e ∈ r.elements) :
    e.range ∈ g.places :=
  mem_cons_of_mem _ (mem_flatMap.mpr ⟨r, mem, mem_cons_of_mem _
    (mem_append_right _ (mem_map_of_mem inside))⟩)

theorem or_range {a : Alternative} (mem : r ∈ g.rules) (inside : a ∈ r.alternatives) :
    a.range.or r.range ∈ g.places :=
  mem_cons_of_mem _ (mem_flatMap.mpr ⟨r, mem, mem_cons_of_mem _
    (mem_append_left _ (mem_map_of_mem (f := (·.range.or r.range)) inside))⟩)

/-- All places are ranges of the grammar or its parts. -/
theorem places_subset : g.places ⊆ g.ranges := by
  refine cons_subset_cons _ fun place inRules => ?_
  obtain ⟨r, mem, inRule⟩ := mem_flatMap.mp inRules
  refine mem_flatMap.mpr ⟨r, mem, ?_⟩
  rcases mem_cons.mp inRule with rfl | inside
  · exact mem_cons_self
  · rcases mem_append.mp inside with inAlternatives | inElements
    · obtain ⟨a, own, rfl⟩ := mem_map.mp inAlternatives
      cases given : a.range with
      | none => exact mem_cons_self
      | some range => exact mem_cons_of_mem _ (mem_flatMap.mpr ⟨a, own, by simp [given]⟩)
    · obtain ⟨e, own, rfl⟩ := mem_map.mp inElements
      obtain ⟨a, inAlternatives, among⟩ := mem_flatMap.mp own
      exact mem_cons_of_mem _ (mem_flatMap.mpr
        ⟨a, inAlternatives, mem_cons_of_mem _ (mem_map_of_mem among)⟩)

theorem mem_parserRules (mem : r ∈ g.parserRules) : r ∈ g.rules := (mem_filter.mp mem).1

theorem mem_lexerRules (mem : r ∈ g.lexerRules) : r ∈ g.rules := (mem_filter.mp mem).1

theorem mem_tokenRules (mem : r ∈ g.tokenRules) : r ∈ g.rules := (mem_filter.mp mem).1

end Grammar

/-- The issue comes from a check of a grammar: it names the check, the grammar's file and a place in
the grammar, has the severity that is set, and makes one suggestion. -/
structure Issue.About (id : String) (g : Grammar) (config : RuleConfig) (issue : Issue) : Prop where
  rule : issue.rule = id
  severity : issue.severity = config.severity
  file : issue.file = g.file
  suggestion : ∃ suggestion, issue.suggestions = [suggestion]
  place : issue.range ∈ g.places

variable {config : RuleConfig} {id : String} {g : Grammar}

theorem Issue.About.range {issue : Issue} (about : issue.About id g config) : issue.range ∈ g.ranges :=
  g.places_subset about.place

theorem Issue.of_about {range : Option Range} (inside : range ∈ g.places)
    (message description fix : String) :
    (Issue.of id g config range message description fix).About id g config :=
  ⟨rfl, rfl, rfl, ⟨_, rfl⟩, inside⟩

def Attributed (id : String) (g : Grammar) (config : RuleConfig) (issues : List Issue) : Prop :=
  ∀ issue ∈ issues, issue.About id g config

namespace Attributed

variable {id : String} {g : Grammar} {config : RuleConfig} {α : Type} {items : List α}

theorem nil : Attributed id g config [] := by simp [Attributed]

variable {issues others : List Issue}

theorem ite {c : Prop} [Decidable c] (first : Attributed id g config issues)
    (second : Attributed id g config others) :
    Attributed id g config (if c then issues else others) := by
  split
  · exact first
  · exact second

theorem singleton {issue : Issue} (about : issue.About id g config) : Attributed id g config [issue] := by
  simpa [Attributed] using about

theorem append (first : Attributed id g config issues) (second : Attributed id g config others) :
    Attributed id g config (issues ++ others) := by
  intro issue mem
  rcases mem_append.mp mem with before | behind
  · exact first issue before
  · exact second issue behind

theorem map {f : α → Issue} (each : ∀ a ∈ items, (f a).About id g config) :
    Attributed id g config (items.map f) := by
  intro issue mem
  obtain ⟨a, inItems, rfl⟩ := mem_map.mp mem
  exact each a inItems

theorem flatMap {f : α → List Issue} (each : ∀ a ∈ items, Attributed id g config (f a)) :
    Attributed id g config (items.flatMap f) := by
  intro issue mem
  obtain ⟨a, inItems, inside⟩ := mem_flatMap.mp mem
  exact each a inItems issue inside

theorem filterMap {f : α → Option Issue}
    (each : ∀ a ∈ items, ∀ issue, f a = some issue → issue.About id g config) :
    Attributed id g config (items.filterMap f) := by
  intro issue mem
  obtain ⟨a, inItems, same⟩ := mem_filterMap.mp mem
  exact each a inItems issue same

theorem filterMapM {f : α → Except Fault (Option Issue)} {found : List Issue}
    (ran : items.filterMapM f = .ok found)
    (each : ∀ a ∈ items, ∀ issue, f a = .ok (some issue) → issue.About id g config) :
    Attributed id g config found := by
  intro issue mem
  obtain ⟨a, inItems, same⟩ := mem_of_filterMapM ran mem
  exact each a inItems issue same

end Attributed

theorem Rule.mem_of_mem_distinct {rules : List Rule} {r : Rule} (mem : r ∈ distinct rules) :
    r ∈ rules := by
  induction rules with
  | nil => simp [distinct] at mem
  | cons first rules ih =>
    rcases mem_cons.mp mem with rfl | later
    · exact mem_cons_self
    · exact mem_cons_of_mem _ (ih (mem_filter.mp later).1)

namespace Check

variable {g : Grammar} {config : RuleConfig} {issues : List Issue} {rules : List Rule} {r : Rule}

theorem mem_of_mem_entryRules {entries : List Rule} {mainRules : Value}
    (found : entryRules rules mainRules = .ok entries) (mem : r ∈ entries) : r ∈ rules := by
  unfold entryRules at found
  split at found
  · exact mem_of_filterM found mem
  · cases found
    exact (mem_filter.mp (Rule.mem_of_mem_distinct mem)).1

theorem mem_literalUses {mode : Option String} {use : LiteralUse} (mem : use ∈ literalUses rules mode) :
    use.rule ∈ rules ∧ use.element ∈ use.rule.elements := by
  obtain ⟨r, inRules, inside⟩ := mem_flatMap.mp mem
  obtain ⟨e, inElements, rfl⟩ := mem_map.mp inside
  exact ⟨(mem_filter.mp inRules).1, (mem_filter.mp inElements).1⟩

theorem mem_labelUses {use : LabelUse} (mem : use ∈ labelUses g) :
    use.rule ∈ g.parserRules ∧ use.alternative ∈ use.rule.alternatives := by
  obtain ⟨r, inRules, inside⟩ := mem_flatMap.mp mem
  obtain ⟨a, inRule, made⟩ := mem_filterMap.mp inside
  obtain ⟨label, -, rfl⟩ := Option.map_eq_some_iff.mp made
  exact ⟨inRules, inRule⟩

theorem mem_of_mem_labelGroups {labels : List String} {group : NameStyle × List String} {label : String}
    (mem : group ∈ labelGroups labels) (inside : label ∈ group.2) : label ∈ labels := by
  obtain ⟨style, -, rfl⟩ := mem_map.mp (mem_filter.mp mem).1
  exact (mem_filter.mp inside).1

theorem mem_pairs {α : Type} {items : List α} {a b : α} : (a, b) ∈ pairs items ↔ [a, b] <+ items := by
  induction items with
  | nil => simp [pairs]
  | cons first items ih =>
    simp only [pairs, mem_append, mem_map, Prod.mk.injEq, ih, sublist_cons_iff, cons.injEq]
    constructor
    · rintro (⟨_, mem, rfl, rfl⟩ | later)
      · exact .inr ⟨_, ⟨rfl, rfl⟩, singleton_sublist.mpr mem⟩
      · exact .inl later
    · rintro (later | ⟨_, ⟨rfl, rfl⟩, one⟩)
      · exact .inr later
      · exact .inl ⟨b, singleton_sublist.mp one, rfl, rfl⟩

theorem mem_of_mem_pairs {α : Type} {items : List α} {a b : α} (mem : (a, b) ∈ pairs items) :
    a ∈ items ∧ b ∈ items := by
  simpa using (mem_pairs.mp mem).subset

theorem mem_of_mem_withEarlier {α : Type} {before items others : List α} {a : α}
    (mem : (others, a) ∈ withEarlier before items) : a ∈ items := by
  induction items generalizing before with
  | nil => simp [withEarlier] at mem
  | cons first items ih =>
    rcases mem_cons.mp mem with here | later
    · cases here
      exact mem_cons_self
    · exact mem_cons_of_mem _ (ih later)

theorem endOfFile_attributed (ran : endOfFile.run g config = .ok issues) :
    Attributed endOfFile.id g config issues := by
  simp only [endOfFile] at ran
  split at ran
  · cases ran
    exact .nil
  · obtain ⟨_, -, ran⟩ := bind_ok ran
    obtain ⟨entries, found, ran⟩ := bind_ok ran
    cases ran
    exact .map fun r mem => Issue.of_about (Grammar.rule_range (Grammar.mem_parserRules
      (mem_of_mem_entryRules found (mem_filter.mp mem).1))) ..

theorem sharedLiteral_attributed (ran : sharedLiteral.run g config = .ok issues) :
    Attributed sharedLiteral.id g config issues := by
  cases ran
  refine .flatMap fun mode _ => .flatMap fun literal _ => .ite .nil (.map fun use mem => ?_)
  obtain ⟨inRules, inElements⟩ := mem_literalUses (mem_filter.mp mem).1
  exact Issue.of_about (Grammar.element_range (Grammar.mem_lexerRules inRules) inElements) ..

theorem labelNameStyle_attributed (ran : labelNameStyle.run g config = .ok issues) :
    Attributed labelNameStyle.id g config issues := by
  simp only [labelNameStyle] at ran
  split at ran <;> cases ran
  · exact .nil
  · refine .flatMap fun group inGroups => .map fun label inside => Issue.of_about ?_ ..
    have known := mem_of_mem_labelGroups (mem_filter.mp inGroups).1 inside
    obtain ⟨use, inUses, same⟩ := mem_map.mp known
    cases found : (labelUses g).reverse.find? (·.label == label) with
    | none =>
      have absent := find?_eq_none.mp found use (mem_reverse.mpr inUses)
      simp [same] at absent
    | some last =>
      have inside := mem_reverse.mp (mem_of_find?_eq_some found)
      obtain ⟨inRules, inRule⟩ := mem_labelUses inside
      exact Grammar.or_range (Grammar.mem_parserRules inRules) inRule

theorem duplicateLabels_attributed (ran : duplicateLabels.run g config = .ok issues) :
    Attributed duplicateLabels.id g config issues := by
  cases ran
  refine .flatMap fun r inRules => .flatMap fun label _ => .ite .nil (.map fun use mem => ?_)
  have inRule := fst_mem_of_mem_zipIdx (mem_filter.mp mem).1
  exact Issue.of_about (Grammar.or_range (Grammar.mem_parserRules inRules) inRule) ..

theorem complexity_attributed (ran : complexity.run g config = .ok issues) :
    Attributed complexity.id g config issues := by
  obtain ⟨_, -, ran⟩ := bind_ok ran
  obtain ⟨_, -, ran⟩ := bind_ok ran
  obtain ⟨_, -, ran⟩ := bind_ok ran
  refine .filterMapM ran fun r mem issue same => ?_
  obtain ⟨found, -, same⟩ := bind_ok same
  cases none : found.isEmpty <;> simp only [none] at same <;> cases same
  exact Issue.of_about (Grammar.rule_range mem) ..

theorem deepNesting_attributed (ran : deepNesting.run g config = .ok issues) :
    Attributed deepNesting.id g config issues := by
  obtain ⟨_, -, ran⟩ := bind_ok ran
  refine .filterMapM ran fun r mem issue same => ?_
  obtain ⟨above, -, same⟩ := bind_ok same
  cases above <;> cases same
  exact Issue.of_about (Grammar.rule_range mem) ..

theorem longRule_attributed (ran : longRule.run g config = .ok issues) :
    Attributed longRule.id g config issues := by
  obtain ⟨_, -, ran⟩ := bind_ok ran
  refine .filterMapM ran fun r mem issue same => ?_
  split at same
  · cases same
  · obtain ⟨above, -, same⟩ := bind_ok same
    cases above
    · cases same
    · obtain ⟨_, -, same⟩ := bind_ok same
      cases same
      exact Issue.of_about (Grammar.rule_range mem) ..

theorem overlappingTokens_attributed (ran : overlappingTokens.run g config = .ok issues) :
    Attributed overlappingTokens.id g config issues := by
  cases ran
  refine .filterMap fun pair mem issue same => ?_
  obtain ⟨reason, -, rfl⟩ := Option.map_eq_some_iff.mp same
  exact Issue.of_about (Grammar.rule_range (Grammar.mem_tokenRules (mem_of_mem_pairs mem).1)) ..

theorem unreachableToken_attributed (ran : unreachableToken.run g config = .ok issues) :
    Attributed unreachableToken.id g config issues := by
  cases ran
  refine .filterMap fun entry mem issue same => ?_
  simp only [Option.ite_none_left_eq_some, Option.some.injEq] at same
  rw [← same.2]
  exact Issue.of_about
    (Grammar.rule_range (Grammar.mem_tokenRules (mem_of_mem_withEarlier mem))) ..

theorem ruleStyles_mem (mem : r ∈ (ruleStyles rules).1 ∨ r ∈ (ruleStyles rules).2) : r ∈ rules := by
  rcases mem with camel | snake
  · exact (mem_filter.mp camel).1
  · exact (mem_filter.mp (mem_filter.mp snake).1).1

theorem ruleNameStyle_attributed (ran : ruleNameStyle.run g config = .ok issues) :
    Attributed ruleNameStyle.id g config issues := by
  simp only [ruleNameStyle] at ran
  split at ran <;> cases ran
  · exact .nil
  · refine .map fun r mem => Issue.of_about (Grammar.rule_range (Grammar.mem_parserRules ?_)) ..
    have named : r ∈ g.parserRules.filter (!·.name.isEmpty) := by
      apply ruleStyles_mem
      split at mem
      · exact .inr mem
      · exact .inl mem
    exact (mem_filter.mp named).1

theorem errorRecovery_attributed (ran : errorRecovery.run g config = .ok issues) :
    Attributed errorRecovery.id g config issues := by
  simp only [errorRecovery] at ran
  split at ran <;> cases ran
  · exact .nil
  · refine .append (.map fun r mem => ?_)
      (.ite .nil (.singleton (Issue.of_about Grammar.declaration_range ..)))
    exact Issue.of_about
      (Grammar.rule_range (Grammar.mem_parserRules (mem_filter.mp mem).1)) ..

theorem ambiguity_attributed (ran : ambiguity.run g config = .ok issues) :
    Attributed ambiguity.id g config issues := by
  cases ran
  refine .append (.flatMap fun r mem => .map fun _ _ => ?_) (.map fun r mem => ?_)
  · exact Issue.of_about (Grammar.rule_range (Grammar.mem_parserRules mem)) ..
  · exact Issue.of_about
      (Grammar.rule_range (Grammar.mem_parserRules (mem_filter.mp mem).1)) ..

/-- What a check finds comes from it. -/
theorem run_attributed {check : Check} (mem : check ∈ all)
    (ran : check.run g config = .ok issues) : Attributed check.id g config issues := by
  have rules : ∀ {id : String} {found : List Rule} {message description fix : Rule → String},
      (∀ r ∈ found, r ∈ g.rules) → Attributed id g config
        (found.map fun r => .of id g config r.range (message r) (description r) (fix r)) :=
    fun inside => .map fun r inFound => Issue.of_about (Grammar.rule_range (inside r inFound)) ..
  simp only [all, mem_cons, not_mem_nil, or_false] at mem
  rcases mem with rfl | rfl | rfl | rfl | rfl | rfl | rfl | rfl | rfl | rfl | rfl | rfl | rfl |
    rfl | rfl | rfl | rfl | rfl | rfl | rfl | rfl
  · exact endOfFile_attributed ran
  · simp only [catchAll] at ran
    split at ran <;> cases ran
    · exact .nil
    · exact rules fun r last => Grammar.mem_lexerRules (mem_of_getLast? (by simpa using last))
  · exact sharedLiteral_attributed ran
  · cases ran
    exact rules fun r inside => Grammar.mem_parserRules (mem_filter.mp inside).1
  · cases ran
    exact rules fun r inside => Grammar.mem_lexerRules (mem_filter.mp inside).1
  · exact ruleNameStyle_attributed ran
  · cases ran
    exact rules fun r inside => Grammar.mem_parserRules (mem_filter.mp inside).1
  · exact labelNameStyle_attributed ran
  · exact duplicateLabels_attributed ran
  · exact complexity_attributed ran
  · exact deepNesting_attributed ran
  · exact longRule_attributed ran
  · exact overlappingTokens_attributed ran
  · exact unreachableToken_attributed ran
  · simp only [unusedToken] at ran
    split at ran <;> cases ran
    · exact .nil
    · exact rules fun r inside => Grammar.mem_tokenRules (mem_filter.mp inside).1
  · exact errorRecovery_attributed ran
  · exact ambiguity_attributed ran
  · cases ran
    exact .flatMap fun r inside => .map fun _ _ => Issue.of_about (Grammar.rule_range inside) ..
  · cases ran
    exact .flatMap fun r inside => .map fun _ _ =>
      Issue.of_about (Grammar.rule_range (Grammar.mem_lexerRules inside)) ..
  · cases ran
    exact rules fun r inside => (mem_filter.mp inside).1
  · cases ran
    exact .singleton (Issue.of_about Grammar.declaration_range ..)

end Check

/-- A value that counts can be compared with. -/
def isNumber : Value → Bool
  | .int _ | .bool _ | .float _ => true
  | _ => false

/-- A value to compare a count with, which can be written if the count is above it. -/
def fits (count : Int) : Value → Bool
  | .int n => decide (count ≤ n) || Check.isWritable n
  | value => isNumber value

/-- A value in which names can be looked for, or one that stands for no names. -/
def isNaming : Value → Bool
  | .str _ | .arr _ | .obj _ => true
  | value => !value.truthy

/-- A threshold that a check reads, with the values that it can use. -/
structure Need where
  name : String
  standard : Value
  usable : Value → Bool
  standard_usable : usable standard = true

namespace Need

def limit (name : String) (most : Int) : Need := ⟨name, .int most, isNumber, rfl⟩

/-- A limit that is written where a count is above it. Only one below zero can be below all counts. -/
def shownLimit (name : String) (most : Nat) : Need := ⟨name, .int most, fits 0, by simp [fits]⟩

def mainRules : Need := ⟨"mainRules", .arr [], isNaming, rfl⟩

end Need

namespace RuleConfig

variable {config : RuleConfig} {need : Need}

/-- The thresholds are an object, with a value of use under the name if there is one. -/
def meets (need : Need) (config : RuleConfig) : Bool :=
  match config.thresholds with
  | .obj fields => (Value.lookUp need.name fields).all need.usable
  | _ => false

theorem meets_iff : config.meets need = true ↔
    ∃ value, config.threshold need.name need.standard = .ok value ∧ need.usable value = true := by
  unfold meets threshold
  cases config.thresholds with
  | obj fields =>
    cases found : Value.lookUp need.name fields with
    | none => simp [found, need.standard_usable]
    | some value => simp [found]
  | null | bool _ | int _ | float _ | str _ | arr _ => simp

theorem meets_of_all {fields : List (Text.Loose × Value)} (same : config.thresholds = .obj fields)
    {good : Value → Bool} (given : (Value.lookUp need.name fields).all good = true)
    (stronger : ∀ value, good value = true → need.usable value = true) : config.meets need = true := by
  rw [meets, same]
  cases found : Value.lookUp need.name fields with
  | none => simp [found]
  | some value =>
    rw [found] at given
    simpa [found] using stronger value given

end RuleConfig

/-- A limit that counts can be compared with, and that can be written. -/
def isWhole : Value → Bool
  | .int n => Check.isWritable n
  | .bool _ => true
  | _ => false

def isNameList : Value → Bool
  | .arr items => items.all Value.isStr
  | _ => false

def limitNames : List String := ["maxAlternatives", "maxNestingDepth", "maxTokens", "maxLines"]

/-- The thresholds are an object in which limits are whole numbers that can be written and main rules a
list of texts, where they are present. -/
def RuleConfig.Sound (config : RuleConfig) : Prop :=
  ∃ fields, config.thresholds = .obj fields ∧
    (∀ name ∈ limitNames, (Value.lookUp name fields).all isWhole) ∧
    (Value.lookUp "mainRules" fields).all isNameList

theorem fits_of_isWhole {value : Value} (whole : isWhole value = true) (count : Int) :
    fits count value = true := by
  cases value with
  | int n => exact Bool.or_eq_true_iff.mpr (.inr whole)
  | bool _ => rfl
  | null | float _ | str _ | arr _ | obj _ => cases whole

/-- What fits in front of all counts fits to one that can be written. -/
theorem fits_of_zero {value : Value} (showable : fits 0 value = true) {count : Int}
    (few : Check.isWritable count = true) : fits count value = true := by
  cases value with
  | int n =>
    simp only [fits, Check.isWritable, Bool.or_eq_true, decide_eq_true_eq] at showable few ⊢
    omega
  | null | bool _ | float _ | str _ | arr _ | obj _ => exact showable

theorem isNumber_of_isWhole (value : Value) (whole : isWhole value = true) : isNumber value = true := by
  cases value with
  | int _ | bool _ => rfl
  | null | float _ | str _ | arr _ | obj _ => simp [isWhole] at whole

theorem isNaming_of_isNameList (value : Value) (names : isNameList value = true) :
    isNaming value = true := by
  cases value with
  | arr _ => rfl
  | null | bool _ | int _ | float _ | str _ | obj _ => simp [isNameList] at names

theorem RuleConfig.Sound.meets_limit (sound : config.Sound) {name : String}
    (mem : name ∈ limitNames) (most : Int) : config.meets (.limit name most) = true := by
  obtain ⟨fields, same, whole, -⟩ := sound
  exact meets_of_all same (whole name mem) isNumber_of_isWhole

theorem RuleConfig.Sound.threshold (sound : config.Sound) {name : String} (mem : name ∈ limitNames)
    {most : Int} (few : isWhole (.int most) = true) :
    ∃ value, config.threshold name (.int most) = .ok value ∧ ∀ count, fits count value = true := by
  obtain ⟨fields, same, whole, -⟩ := sound
  obtain ⟨value, read, isWhole⟩ := (@meets_iff config ⟨name, .int most, isWhole, few⟩).mp
    (meets_of_all same (whole name mem) fun _ good => good)
  exact ⟨value, read, fits_of_isWhole isWhole⟩

theorem RuleConfig.Sound.meets_mainRules (sound : config.Sound) : config.meets .mainRules = true := by
  obtain ⟨fields, same, -, names⟩ := sound
  exact meets_of_all same names isNaming_of_isNameList

theorem exceeds_ok_iff {limit : Value} (count : Int) :
    (∃ above, exceeds count limit = .ok above) ↔ isNumber limit = true := by
  cases limit <;> simp [exceeds, isNumber]

/-- The number of lines of a rule can be written in digits. -/
def Rule.Countable (r : Rule) : Prop :=
  ∀ range, r.range = some range → Check.isWritable (range.endLine - range.startLine + 1) = true

namespace Check

/-- The checks that read thresholds, with what they need. -/
def limited : List (Check × List Need) := [
  (endOfFile, [.mainRules]),
  (complexity, [.shownLimit "maxAlternatives" 10, .shownLimit "maxNestingDepth" 5,
    .shownLimit "maxTokens" 50]),
  (deepNesting, [.limit "maxNestingDepth" 4]),
  (longRule, [.limit "maxLines" 30])]

theorem isNamedBy_ok_iff {name : String} {value : Value} (true_ : value.truthy = true) :
    (∃ named, isNamedBy name value = .ok named) ↔ isNaming value = true := by
  cases value <;> simp_all [isNamedBy, isNaming]

theorem entryRules_ok {mainRules : Value} (naming : isNaming mainRules = true) (rules : List Rule) :
    ∃ entries, entryRules rules mainRules = .ok entries := by
  unfold entryRules
  split
  · rename_i true_
    exact filterM_ok fun r _ => (isNamedBy_ok_iff true_).mpr naming
  · exact ⟨_, rfl⟩

variable {config : RuleConfig} {g : Grammar} {check : Check}

theorem endOfFile_ok (meets : config.meets .mainRules = true) (g : Grammar) :
    ∃ issues, endOfFile.run g config = .ok issues := by
  obtain ⟨mainRules, threshold, naming⟩ := RuleConfig.meets_iff.mp meets
  obtain ⟨entries, found⟩ := entryRules_ok naming g.parserRules
  simp only [Need.mainRules] at threshold
  simp only [endOfFile, threshold, ok_bind, found]
  split <;> exact ⟨_, rfl⟩

theorem isWritable_iff {n : Int} : isWritable n = true ↔ n.natAbs < 10 ^ Json.mostDigits := by
  rw [isWritable, Nat.pow_eq, decide_eq_true_eq]

theorem numberText_ok {n : Int} (few : isWritable n = true) : numberText n = .ok (toString n) :=
  if_pos few

theorem overrun_ok_iff {what : String} {count : Nat} {limit : Value} :
    (∃ found, overrun what count limit = .ok found) ↔ fits count limit = true := by
  have shown {above : Bool} {text : String} (compared : exceeds count limit = .ok above)
      (written : limitText limit = .ok text) : ∃ found, overrun what count limit = .ok found := by
    rw [overrun, compared, written]
    cases above <;> exact ⟨_, rfl⟩
  cases limit with
  | int n =>
    simp only [overrun, exceeds, limitText, ok_bind, fits, Bool.or_eq_true, decide_eq_true_eq]
    by_cases above : n < count
    · cases few : isWritable n <;> simp [above, numberText, few]
    · exact iff_of_true ⟨none, if_neg above⟩ (.inl (not_lt.mp above))
  | bool _ | float _ => exact iff_of_true (shown rfl rfl) rfl
  | null | str _ | arr _ | obj _ => exact iff_of_false (by rintro ⟨_, ⟨⟩⟩) Bool.false_ne_true

theorem excesses_ok_iff {limits : List (String × Nat × Value)} :
    (∃ found, excesses limits = .ok found) ↔ ∀ limit ∈ limits, fits limit.2.1 limit.2.2 = true := by
  constructor
  · rintro ⟨found, ran⟩ limit mem
    exact overrun_ok_iff.mp (each_of_filterMapM ran limit mem)
  · exact fun fitting => filterMapM_ok fun limit mem => overrun_ok_iff.mpr (fitting limit mem)

theorem complexity_ok {maxAlternatives maxDepth maxTokens : Value}
    (first : config.threshold "maxAlternatives" (.int 10) = .ok maxAlternatives)
    (second : config.threshold "maxNestingDepth" (.int 5) = .ok maxDepth)
    (third : config.threshold "maxTokens" (.int 50) = .ok maxTokens)
    (fitting : ∀ r ∈ g.rules, fits r.alternatives.length maxAlternatives = true ∧
      fits (nestingDepth parentheses r) maxDepth = true ∧ fits (elementCount r) maxTokens = true) :
    ∃ issues, complexity.run g config = .ok issues := by
  simp only [complexity, first, second, third, ok_bind]
  refine filterMapM_ok fun r mem => ?_
  obtain ⟨found, ran⟩ : ∃ found, excesses [
      ("too many alternatives", r.alternatives.length, maxAlternatives),
      ("excessive nesting depth", nestingDepth parentheses r, maxDepth),
      ("too many tokens", elementCount r, maxTokens)] = .ok found :=
    excesses_ok_iff.mpr (by simpa using fitting r mem)
  exact ⟨_, by rw [ran]; rfl⟩

theorem deepNesting_ok (meets : config.meets (.limit "maxNestingDepth" 4) = true) (g : Grammar) :
    ∃ issues, deepNesting.run g config = .ok issues := by
  obtain ⟨maxDepth, threshold, number⟩ := RuleConfig.meets_iff.mp meets
  simp only [Need.limit] at threshold
  simp only [deepNesting, threshold, ok_bind]
  refine filterMapM_ok fun r _ => ?_
  obtain ⟨above, compared⟩ := (exceeds_ok_iff (nestingDepth allBrackets r)).mpr number
  exact ⟨_, by rw [compared]; rfl⟩

theorem longRule_ok (meets : config.meets (.limit "maxLines" 30) = true)
    (countable : ∀ r ∈ g.rules, r.Countable) :
    ∃ issues, longRule.run g config = .ok issues := by
  obtain ⟨maxLines, threshold, number⟩ := RuleConfig.meets_iff.mp meets
  simp only [Need.limit] at threshold
  simp only [longRule, threshold, ok_bind]
  refine filterMapM_ok fun r mem => ?_
  split
  · exact ⟨_, rfl⟩
  · rename_i range same
    obtain ⟨above, compared⟩ := (exceeds_ok_iff (range.endLine - range.startLine + 1)).mpr number
    rw [compared, numberText_ok (countable r mem range same)]
    cases above <;> exact ⟨_, rfl⟩

/-- A check that reads no thresholds runs to its end whatever its configuration. -/
theorem mem_limited_or_ok (mem : check ∈ all) :
    (∃ needs, (check, needs) ∈ limited) ∨ ∀ g config, ∃ issues, check.run g config = .ok issues := by
  simp only [all, mem_cons, not_mem_nil, or_false] at mem
  rcases mem with rfl | rfl | rfl | rfl | rfl | rfl | rfl | rfl | rfl | rfl | rfl | rfl | rfl |
    rfl | rfl | rfl | rfl | rfl | rfl | rfl | rfl
  any_goals exact .inr fun _ _ => ⟨_, rfl⟩
  -- Others first ask whether there is anything to look at.
  any_goals
    refine .inr fun g config => ?_
    simp only [catchAll, ruleNameStyle, labelNameStyle, unusedToken, errorRecovery]
    split <;> exact ⟨_, rfl⟩
  · exact .inl ⟨_, .head _⟩
  · exact .inl ⟨_, .tail _ (.head _)⟩
  · exact .inl ⟨_, .tail _ (.tail _ (.head _))⟩
  · exact .inl ⟨_, .tail _ (.tail _ (.tail _ (.head _)))⟩

/-- A check whose configuration is sound runs to its end. -/
theorem run_ok (mem : check ∈ all) (sound : config.Sound) (countable : ∀ r ∈ g.rules, r.Countable) :
    ∃ issues, check.run g config = .ok issues := by
  rcases mem_limited_or_ok mem with ⟨needs, isLimited⟩ | free
  · simp only [limited, mem_cons, Prod.mk.injEq, not_mem_nil, or_false] at isLimited
    rcases isLimited with ⟨rfl, -⟩ | ⟨rfl, -⟩ | ⟨rfl, -⟩ | ⟨rfl, -⟩
    · exact endOfFile_ok sound.meets_mainRules g
    · have names : "maxAlternatives" ∈ limitNames ∧ "maxNestingDepth" ∈ limitNames ∧
          "maxTokens" ∈ limitNames := by decide
      have few : isWhole (.int 10) ∧ isWhole (.int 5) ∧ isWhole (.int 50) := by decide +kernel
      obtain ⟨_, first, alternatives⟩ := sound.threshold names.1 few.1
      obtain ⟨_, second, depth⟩ := sound.threshold names.2.1 few.2.1
      obtain ⟨_, third, tokens⟩ := sound.threshold names.2.2 few.2.2
      exact complexity_ok first second third fun _ _ => ⟨alternatives _, depth _, tokens _⟩
    · exact deepNesting_ok (sound.meets_limit (by decide) 4) g
    · exact longRule_ok (sound.meets_limit (by decide) 30) countable
  · exact free g config

end Check

end GrammarLint
