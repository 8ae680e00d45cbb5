import GrammarLint.Proofs.Relocation
import GrammarLint.Proofs.Shapes

open List

namespace GrammarLint

@[simp] theorem ok_map {α β : Type} (f : α → β) (a : α) :
    (Except.ok a : Except Fault α).map f = .ok (f a) := rfl

theorem map_bind_congr {α β γ : Type} {x : Except Fault α} {k k' : α → Except Fault β} {view : β → γ}
    (each : ∀ a, (k' a).map view = (k a).map view) : (x >>= k').map view = (x >>= k).map view := by
  cases x with
  | error fault => rfl
  | ok a => exact each a

/-- Whether there is a result, or the fault, but not which result. -/
def outcome {α : Type} (x : Except Fault α) : Except Fault Unit := x.map fun _ => ()

theorem map_eq_of_outcome {α β : Type} {x y : Except Fault α} {view : α → β}
    (same : outcome x = outcome y) (alike : ∀ a b, x = .ok a → y = .ok b → view a = view b) :
    x.map view = y.map view := by
  cases x with
  | error fault =>
    cases y with
    | error fault' =>
      cases same
      rfl
    | ok b => cases same
  | ok a =>
    cases y with
    | error fault => cases same
    | ok b => exact congrArg Except.ok (alike a b rfl rfl)

section Lists

variable {α α' β γ : Type} {items : List α} {f : α → α'}

theorem map_filterMapM (k : α → Except Fault (Option β)) (view : β → γ) :
    (items.filterMapM k).map (map view) = items.filterMapM fun a => (k a).map (Option.map view) := by
  induction items with
  | nil => rfl
  | cons a items ih =>
    rw [filterMapM_cons, filterMapM_cons, ← ih]
    rcases k a with _ | _ | b
    · rfl
    · rfl
    · cases items.filterMapM k <;> rfl

theorem filterMapM_map_congr {k : α → Except Fault (Option β)} {k' : α' → Except Fault (Option β)}
    (each : ∀ a ∈ items, k' (f a) = k a) : (items.map f).filterMapM k' = items.filterMapM k := by
  induction items with
  | nil => rfl
  | cons a items ih =>
    obtain ⟨here, later⟩ := forall_mem_cons.mp each
    rw [map_cons, filterMapM_cons, filterMapM_cons, here, ih later]

theorem outcome_filterMapM_cons (k : α → Except Fault (Option β)) (a : α) :
    outcome ((a :: items).filterMapM k) = outcome (k a) >>= fun _ => outcome (items.filterMapM k) := by
  rw [filterMapM_cons]
  rcases k a with _ | _ | b
  · rfl
  · rfl
  · cases items.filterMapM k <;> rfl

theorem outcome_filterMapM_congr {k : α → Except Fault (Option β)} {k' : α' → Except Fault (Option β)}
    (each : ∀ a ∈ items, outcome (k' (f a)) = outcome (k a)) :
    outcome ((items.map f).filterMapM k') = outcome (items.filterMapM k) := by
  induction items with
  | nil => rfl
  | cons a items ih =>
    obtain ⟨here, later⟩ := forall_mem_cons.mp each
    rw [map_cons, outcome_filterMapM_cons, outcome_filterMapM_cons, here, ih later]

theorem filterM_map (p : α' → Except Fault Bool) :
    (items.map f).filterM p = (items.filterM fun a => p (f a)).map (map f) := by
  suffices general : ∀ kept, (items.map f).filterAuxM p (kept.map f) =
      (items.filterAuxM (fun a => p (f a)) kept).map (map f) by
    have start := general []
    rw [map_nil] at start
    rw [filterM, filterM, start]
    cases items.filterAuxM (fun a => p (f a)) [] with
    | error fault => rfl
    | ok found => exact congrArg Except.ok map_reverse.symm
  induction items with
  | nil => exact fun kept => rfl
  | cons a items ih =>
    intro kept
    rw [map_cons, filterAuxM, filterAuxM]
    rcases p (f a) with _ | _ | _
    · rfl
    · exact ih kept
    · exact ih (a :: kept)

theorem map_mapM (k : α → Except Fault β) (view : β → γ) :
    (items.mapM k).map (map view) = items.mapM fun a => (k a).map view := by
  induction items with
  | nil => rfl
  | cons a items ih =>
    rw [mapM_cons, mapM_cons, ← ih]
    rcases k a with _ | b
    · rfl
    · cases items.mapM k <;> rfl

theorem mapM_congr {k k' : α → Except Fault β} (each : ∀ a ∈ items, k' a = k a) :
    items.mapM k' = items.mapM k := by
  induction items with
  | nil => rfl
  | cons a items ih =>
    obtain ⟨here, later⟩ := forall_mem_cons.mp each
    rw [mapM_cons, mapM_cons, here, ih later]

end Lists

def Issue.bare (issue : Issue) : Issue := { issue with range := none }

/-- The issue at another place. -/
def Issue.relocate (h : Range → Range) (issue : Issue) : Issue :=
  { issue with range := issue.range.map h }

@[simp] theorem Issue.bare_relocate (h : Range → Range) (issue : Issue) :
    (issue.relocate h).bare = issue.bare := rfl

@[simp] theorem Issue.bare_of (id : String) (g : Grammar) (config : RuleConfig)
    (range : Option Range) (message description fix : String) :
    (Issue.of id g config range message description fix).bare =
      Issue.of id g config none message description fix := rfl

def Range.bounds (range : Range) : List Int :=
  [range.startLine, range.startColumn, range.endLine, range.endColumn]

theorem Range.bounds_lt {a b : Range} : a.bounds < b.bounds ↔
    a.startLine < b.startLine ∨ a.startLine = b.startLine ∧ (a.startColumn < b.startColumn ∨
      a.startColumn = b.startColumn ∧ (a.endLine < b.endLine ∨
        a.endLine = b.endLine ∧ a.endColumn < b.endColumn)) := by
  simp [bounds, cons_lt_cons_iff]

/-- The ranges of the rules of a grammar keep their order when they are changed. -/
def Grammar.KeepsOrder (h : Range → Range) (g : Grammar) : Prop :=
  ∀ a b : Range, some a ∈ g.rules.flatMap Rule.ranges → some b ∈ g.rules.flatMap Rule.ranges →
    ((h a).bounds < (h b).bounds ↔ a.bounds < b.bounds)

namespace Grammar.KeepsOrder

variable {h : Range → Range} {g : Grammar}

theorem inj (keeps : g.KeepsOrder h) {a b : Option Range} (inA : a ∈ none :: g.rules.flatMap Rule.ranges)
    (inB : b ∈ none :: g.rules.flatMap Rule.ranges) (same : a.map h = b.map h) : a = b := by
  cases a with
  | none => cases b <;> simp_all
  | some a =>
    cases b with
    | none => simp at same
    | some b =>
      have equal : h a = h b := Option.some.inj same
      have before := keeps a b (by simpa using inA) (by simpa using inB)
      have behind := keeps b a (by simpa using inB) (by simpa using inA)
      simp only [equal, Range.bounds_lt] at before behind
      cases a
      cases b
      simp only [Option.some.injEq, Range.mk.injEq]
      simp only at before behind
      omega

theorem inj_rule (keeps : g.KeepsOrder h) {r : Rule} (mem : r ∈ g.rules) :
    ∀ a ∈ r.ranges, ∀ b ∈ r.ranges, a.map h = b.map h → a = b := fun _ inA _ inB =>
  keeps.inj (mem_cons_of_mem _ (mem_flatMap.mpr ⟨r, mem, inA⟩))
    (mem_cons_of_mem _ (mem_flatMap.mpr ⟨r, mem, inB⟩))

end Grammar.KeepsOrder

section Parts

variable (h : Range → Range) (e : Element)

@[simp] theorem Element.relocate_text : (e.relocate h).text = e.text := rfl

@[simp] theorem Element.relocate_type : (e.relocate h).type = e.type := rfl

@[simp] theorem Element.relocate_label : (e.relocate h).label = e.label := rfl

@[simp] theorem Element.relocate_isLiteral : (e.relocate h).isLiteral = e.isLiteral := rfl

namespace Alternative

variable (a : Alternative)

@[simp] theorem relocate_elements : (a.relocate h).elements = a.elements.map (Element.relocate h) := rfl

@[simp] theorem relocate_label? : (a.relocate h).label? = a.label? := rfl

@[simp] theorem relocate_firstText? : (a.relocate h).firstText? = a.firstText? := by
  simp [firstText?, Function.comp_def]

end Alternative

namespace Rule

variable (r : Rule)

@[simp] theorem relocate_name : (r.relocate h).name = r.name := rfl

@[simp] theorem relocate_isLexer : (r.relocate h).isLexer = r.isLexer := rfl

@[simp] theorem relocate_isFragment : (r.relocate h).isFragment = r.isFragment := rfl

@[simp] theorem relocate_mode : (r.relocate h).mode = r.mode := rfl

@[simp] theorem relocate_alternatives :
    (r.relocate h).alternatives = r.alternatives.map (Alternative.relocate h) := rfl

@[simp] theorem relocate_elements : (r.relocate h).elements = r.elements.map (Element.relocate h) := by
  simp [elements, flatMap_map, map_flatMap]

@[simp] theorem relocate_same (s : Rule) : (r.relocate h).same (s.relocate h) = r.same s := rfl

theorem distinct_relocate (rules : List Rule) :
    distinct (rules.map (relocate h)) = (distinct rules).map (relocate h) := by
  induction rules with
  | nil => rfl
  | cons r rest ih => simp [distinct, ih, filter_map, Function.comp_def]

end Rule

namespace Grammar

variable (g : Grammar)

@[simp] theorem relocate_kind : (g.relocate h).kind = g.kind := rfl

@[simp] theorem relocate_name : (g.relocate h).name = g.name := rfl

@[simp] theorem relocate_rules : (g.relocate h).rules = g.rules.map (Rule.relocate h) := rfl

@[simp] theorem relocate_parserRules :
    (g.relocate h).parserRules = g.parserRules.map (Rule.relocate h) := by
  simp [parserRules, filter_map, Function.comp_def]

@[simp] theorem relocate_lexerRules :
    (g.relocate h).lexerRules = g.lexerRules.map (Rule.relocate h) := by
  simp [lexerRules, filter_map, Function.comp_def]

@[simp] theorem relocate_tokenRules :
    (g.relocate h).tokenRules = g.tokenRules.map (Rule.relocate h) := by
  simp [tokenRules, filter_map, Function.comp_def]

end Grammar

@[simp] theorem Issue.of_relocate (id : String) (g : Grammar) (config : RuleConfig)
    (range : Option Range) (message description fix : String) :
    Issue.of id (g.relocate h) config range message description fix =
      Issue.of id g config range message description fix := rfl

end Parts

namespace Check

/-- What a check reports, apart from the places. -/
def finds (check : Check) (g : Grammar) (config : RuleConfig) : Except Fault (List Issue) :=
  (check.run g config).map (·.map Issue.bare)

section Placeless

variable (h : Range → Range) (g : Grammar) (config : RuleConfig)

@[simp] theorem catchAll_relocate : catchAll.finds (g.relocate h) config = catchAll.finds g config := by
  have same : ∀ r, isCatchAll (r.relocate h) = isCatchAll r := by
    simp [isCatchAll, isCatchAllName, Function.comp_def]
  simp only [finds, catchAll, Grammar.relocate_kind, Grammar.relocate_lexerRules, any_map,
    Function.comp_def, same, getLast?_map, Issue.of_relocate]
  split
  · rfl
  · cases g.lexerRules.getLast? <;> rfl

theorem literalUses_relocate (rules : List Rule) (mode : Option String) :
    literalUses (rules.map (Rule.relocate h)) mode =
      (literalUses rules mode).map fun use => ⟨use.rule.relocate h, use.element.relocate h⟩ := by
  simp [literalUses, filter_map, flatMap_map, map_flatMap, Function.comp_def]
  rfl

@[simp] theorem sharedLiteral_relocate :
    sharedLiteral.finds (g.relocate h) config = sharedLiteral.finds g config := by
  have rules : ∀ uses : List LiteralUse, Rule.distinct (uses.map fun use => use.rule.relocate h) =
      (Rule.distinct (uses.map (·.rule))).map (Rule.relocate h) := by
    intro uses
    rw [← Rule.distinct_relocate, map_map]
    rfl
  simp [finds, sharedLiteral, literalUses_relocate, rules, apply_ite (map Issue.bare),
    filter_map, map_flatMap, Function.comp_def]

@[simp] theorem parserRuleName_relocate :
    parserRuleName.finds (g.relocate h) config = parserRuleName.finds g config := by
  have same : ∀ r, startsWrongForParser (r.relocate h) = startsWrongForParser r := fun _ => rfl
  simp [finds, parserRuleName, same, filter_map, Function.comp_def]

@[simp] theorem lexerRuleName_relocate :
    lexerRuleName.finds (g.relocate h) config = lexerRuleName.finds g config := by
  simp [finds, lexerRuleName, filter_map, Function.comp_def]

theorem ruleStyles_relocate (rules : List Rule) :
    ruleStyles (rules.map (Rule.relocate h)) =
      ((ruleStyles rules).1.map (Rule.relocate h), (ruleStyles rules).2.map (Rule.relocate h)) := by
  simp [ruleStyles, filter_map, Function.comp_def]

@[simp] theorem ruleNameStyle_relocate :
    ruleNameStyle.finds (g.relocate h) config = ruleNameStyle.finds g config := by
  simp only [finds, ruleNameStyle, Grammar.relocate_parserRules, filter_map, Function.comp_def,
    Rule.relocate_name, ruleStyles_relocate]
  rcases ruleStyles (g.parserRules.filter (!·.name.isEmpty)) with ⟨camel, snake⟩
  by_cases fewer : snake.length ≤ camel.length <;>
    simp [fewer, apply_ite (Except.map (map Issue.bare)), Function.comp_def]

@[simp] theorem missingLabels_relocate :
    missingLabels.finds (g.relocate h) config = missingLabels.finds g config := by
  simp [finds, missingLabels, unlabeled, filter_map, Function.comp_def]

theorem labelUses_relocate :
    labelUses (g.relocate h) = (labelUses g).map fun use =>
      ⟨use.label, use.rule.relocate h, use.alternative.relocate h⟩ := by
  simp [labelUses, flatMap_map, map_flatMap, map_filterMap, Function.comp_def]

@[simp] theorem labelNameStyle_relocate :
    labelNameStyle.finds (g.relocate h) config = labelNameStyle.finds g config := by
  simp only [finds, labelNameStyle, labelUses_relocate, map_map, Function.comp_def]
  cases dominant (labelGroups ((labelUses g).map (·.label))) <;>
    simp [map_flatMap, Function.comp_def]

theorem labeledWith_relocate (label : String) (r : Rule) : labeledWith label (r.relocate h) =
    (labeledWith label r).map fun use => (use.1.relocate h, use.2) := by
  simp [labeledWith, zipIdx_map, filter_map, Function.comp_def]

@[simp] theorem duplicateLabels_relocate :
    duplicateLabels.finds (g.relocate h) config = duplicateLabels.finds g config := by
  have labels : ∀ r, labelsOf (r.relocate h) = labelsOf r := by
    simp [labelsOf, Function.comp_def]
  simp only [finds, duplicateLabels, Grammar.relocate_parserRules, ok_map, flatMap_map,
    map_flatMap, labels, labeledWith_relocate, length_map]
  congr 1
  refine flatMap_congr fun r _ => flatMap_congr fun label _ => ?_
  split
  · rfl
  · rw [map_map, map_map, map_map]
    rfl

theorem pairs_map {α β : Type} (f : α → β) (items : List α) :
    pairs (items.map f) = (pairs items).map (Prod.map f f) := by
  induction items with
  | nil => rfl
  | cons a items ih => simp [pairs, ih, Function.comp_def]

theorem withEarlier_map {α β : Type} (f : α → β) (before items : List α) :
    withEarlier (before.map f) (items.map f) =
      (withEarlier before items).map (Prod.map (map f) f) := by
  induction items generalizing before with
  | nil => rfl
  | cons a items ih =>
    have later := ih (before ++ [a])
    rw [map_append] at later
    simp only [map_cons, map_nil] at later
    simp [withEarlier, later]

theorem overlap_relocate (r s : Rule) : overlap (r.relocate h) (s.relocate h) = overlap r s := by
  have literals : ∀ r, literals (r.relocate h) = literals r := by
    simp [literals, filter_map, Function.comp_def]
  have firstText : ∀ r, firstText (r.relocate h) = firstText r := by
    intro r
    simp only [firstText, Rule.relocate_alternatives, head?_map]
    cases r.alternatives.head? <;> simp
  have keyword : ∀ r, isKeywordLike (r.relocate h) = isKeywordLike r := by
    simp [isKeywordLike, Function.comp_def]
  have numeric : ∀ r, isNumeric (r.relocate h) = isNumeric r := by
    simp [isNumeric, upperName, Function.comp_def]
  have type : ∀ r, numberType (r.relocate h) = numberType r := by
    intro r
    simp only [numberType, Rule.relocate_alternatives, find?_map, Function.comp_def,
      Alternative.relocate_elements, any_map, Element.relocate_text]
    cases r.alternatives.find? fun a => a.elements.any fun e => hasDigits e.text <;>
      simp only [Option.map_some, Option.map_none, Alternative.relocate_elements, any_map]
    rfl
  simp only [overlap, literals, firstText, keyword, numeric, numbersOverlap, type, upperName, Rule.relocate_name]
  rfl

@[simp] theorem overlappingTokens_relocate :
    overlappingTokens.finds (g.relocate h) config = overlappingTokens.finds g config := by
  simp only [finds, overlappingTokens, Grammar.relocate_tokenRules, ok_map, pairs_map,
    filterMap_map, map_filterMap]
  refine congrArg Except.ok (filterMap_congr fun pair _ => ?_)
  simp only [Function.comp_apply, Prod.map, overlap_relocate]
  cases overlap pair.1 pair.2 <;> rfl

theorem shadows_relocate (r s : Rule) : shadows (r.relocate h) (s.relocate h) = shadows r s := by
  have patterns : ∀ r, patternTexts (r.relocate h) = patternTexts r := by
    simp [patternTexts, Function.comp_def]
  have keyword : isSpecificKeyword (s.relocate h) = isSpecificKeyword s := by
    simp [isSpecificKeyword, takeWhile_map, Function.comp_def]
    rfl
  simp [shadows, samePatterns, patterns, keyword, takesAnything, isIdentifierLike, Function.comp_def]

@[simp] theorem unreachableToken_relocate :
    unreachableToken.finds (g.relocate h) config = unreachableToken.finds g config := by
  have earlier : withEarlier [] (g.tokenRules.map (Rule.relocate h)) =
      (withEarlier [] g.tokenRules).map (Prod.map (map (Rule.relocate h)) (Rule.relocate h)) :=
    withEarlier_map (Rule.relocate h) [] g.tokenRules
  simp [finds, unreachableToken, earlier, shadows_relocate, apply_ite (Option.map Issue.bare), map_filterMap,
    filter_map, Function.comp_def]

@[simp] theorem unusedToken_relocate : unusedToken.finds (g.relocate h) config = unusedToken.finds g config := by
  have used : usedTokens (g.relocate h) = usedTokens g := by
    simp [usedTokens, flatMap_map, filter_flatMap, map_flatMap, filter_map,
      Function.comp_def]
  simp [finds, unusedToken, used, apply_ite (Except.map (map Issue.bare)), filter_map,
    Function.comp_def]
  rfl

theorem hintsAtRecovery_relocate (r : Rule) : hintsAtRecovery (r.relocate h) = hintsAtRecovery r := by
  simp [hintsAtRecovery, Function.comp_def]

@[simp] theorem errorRecovery_relocate :
    errorRecovery.finds (g.relocate h) config = errorRecovery.finds g config := by
  simp [finds, errorRecovery, hintsAtRecovery_relocate, isImportant,
    apply_ite (Except.map (map Issue.bare)), apply_ite (map Issue.bare), filter_map,
    Function.comp_def]

@[simp] theorem ambiguity_relocate : ambiguity.finds (g.relocate h) config = ambiguity.finds g config := by
  have same : ∀ r, isLeftRecursive (r.relocate h) = isLeftRecursive r := by
    simp [isLeftRecursive, Function.comp_def]
  have found : ∀ r, ambiguities (r.relocate h) = ambiguities r := by
    simp [ambiguities, alternativePairs, zipIdx_map, pairs_map, flatMap_map, pairAmbiguities]
  simp [finds, ambiguity, same, found, flatMap_map, map_flatMap, filter_map, Function.comp_def]

@[simp] theorem inefficientPattern_relocate :
    inefficientPattern.finds (g.relocate h) config = inefficientPattern.finds g config := by
  simp [finds, inefficientPattern, inefficiencies, flatMap_map, map_flatMap, Function.comp_def]

@[simp] theorem ruleDocumentation_relocate :
    ruleDocumentation.finds (g.relocate h) config = ruleDocumentation.finds g config := by
  have same : ∀ r, isComplex (r.relocate h) = isComplex r := by
    intro r
    simp [isComplex, elementCount]
    rfl
  simp [finds, ruleDocumentation, same, filter_map, Function.comp_def]

@[simp] theorem headerDocumentation_relocate :
    headerDocumentation.finds (g.relocate h) config = headerDocumentation.finds g config := by
  simp [finds, headerDocumentation]

theorem nestingDepth_relocate (brackets : Brackets) (r : Rule) :
    nestingDepth brackets (r.relocate h) = nestingDepth brackets r := by
  simp [nestingDepth, alternativeDepth, wholeText, flatMap_map, Function.comp_def]
  rfl

@[simp] theorem complexity_relocate : complexity.finds (g.relocate h) config = complexity.finds g config := by
  have count : ∀ r, elementCount (r.relocate h) = elementCount r := by
    simp [elementCount]
  refine map_bind_congr fun maxAlternatives => map_bind_congr fun maxDepth =>
    map_bind_congr fun maxTokens => ?_
  rw [map_filterMapM, map_filterMapM]
  refine filterMapM_map_congr fun r _ => ?_
  simp only [nestingDepth_relocate, count, Rule.relocate_alternatives, length_map]
  refine map_bind_congr fun found => ?_
  cases found <;> rfl

@[simp] theorem deepNesting_relocate : deepNesting.finds (g.relocate h) config = deepNesting.finds g config := by
  refine map_bind_congr fun maxDepth => ?_
  rw [map_filterMapM, map_filterMapM]
  refine filterMapM_map_congr fun r _ => ?_
  simp only [nestingDepth_relocate]
  refine map_bind_congr fun deep => ?_
  cases deep <;> rfl

/-- Where its lines can be counted, the length of a rule does not decide whether the check fails. -/
theorem measured_outcome {lines : Int} (few : isWritable lines = true) (limit : Json.Value)
    (make : String → Option Issue) :
    outcome (exceeds lines limit >>= fun above =>
        if above then numberText lines >>= fun count => pure (make count) else pure none) =
      outcome (exceeds 0 limit) := by
  have same : outcome (exceeds lines limit) = outcome (exceeds 0 limit) := by cases limit <;> rfl
  rw [← same, numberText_ok few]
  rcases exceeds lines limit with _ | _ | _ <;> rfl

theorem longRule_relocate (countable : ∀ r ∈ g.rules, r.Countable)
    (countable' : ∀ r ∈ (g.relocate h).rules, r.Countable) :
    outcome (longRule.run (g.relocate h) config) = outcome (longRule.run g config) := by
  refine map_bind_congr fun maxLines => outcome_filterMapM_congr fun r mem => ?_
  cases range : r.range with
  | none =>
    have moved : (r.relocate h).range = none := by simp [Rule.relocate, range]
    simp [moved]
  | some place =>
    have moved : (r.relocate h).range = some (h place) := by simp [Rule.relocate, range]
    have few := countable r mem place range
    have few' := countable' (r.relocate h) (mem_map_of_mem mem) (h place) moved
    simp only [moved]
    exact (measured_outcome few' maxLines _).trans (measured_outcome few maxLines _).symm

section Slow

variable {h}

theorem startAlike_relocate (a b : Alternative) :
    startAlike (a.relocate h) (b.relocate h) = startAlike a b := by
  simp [startAlike]

theorem conflicts_relocate (alternatives : List Alternative) :
    conflicts (alternatives.map (Alternative.relocate h)) = conflicts alternatives := by
  have first : ∀ (a : Alternative) (later : List Alternative),
      conflictWithLater (a.relocate h) (later.map (Alternative.relocate h)) =
        conflictWithLater a later := by
    intro a later
    induction later with
    | nil => rfl
    | cons b later ih =>
      have clash : optionalConflict (a.relocate h) (b.relocate h) = optionalConflict a b := by
        simp [optionalConflict]
      rw [map_cons, conflictWithLater, conflictWithLater, startAlike_relocate, clash, ih]
  induction alternatives with
  | nil => rfl
  | cons a later ih => rw [map_cons, conflicts, conflicts, first, ih]

theorem starsInARow_relocate (elements : List Element) :
    starsInARow (elements.map (Element.relocate h)) = starsInARow elements := by
  induction elements with
  | nil => rfl
  | cons e later ih =>
    cases later with
    | nil => rfl
    | cons f later =>
      simp only [map_cons] at ih
      simp [starsInARow, ih]

theorem optionalDepth_relocate (current deepest : Nat) (elements : List Element) :
    optionalDepth current deepest (elements.map (Element.relocate h)) =
      optionalDepth current deepest elements := by
  induction elements generalizing current deepest with
  | nil => rfl
  | cons e later ih => exact ih _ _

variable {r : Rule}

theorem relocate_inj (apart : ∀ a ∈ r.ranges, ∀ b ∈ r.ranges, a.map h = b.map h → a = b)
    {a b : Alternative} (inA : a ∈ r.alternatives) (inB : b ∈ r.alternatives) :
    a.relocate h = b.relocate h ↔ a = b := by
  refine ⟨fun same => ?_, fun same => same ▸ rfl⟩
  have own : ∀ {c : Alternative}, c ∈ r.alternatives → c.range ∈ r.ranges := fun inside =>
    mem_cons_of_mem _ (mem_flatMap.mpr ⟨_, inside, mem_cons_self⟩)
  have element : ∀ {c : Alternative}, c ∈ r.alternatives → ∀ e ∈ c.elements, e.range ∈ r.ranges :=
    fun inside e mem => mem_cons_of_mem _ (mem_flatMap.mpr
      ⟨_, inside, mem_cons_of_mem _ (mem_map_of_mem mem)⟩)
  obtain ⟨elements, label, range⟩ := a
  obtain ⟨elements', label', range'⟩ := b
  simp only [Alternative.relocate, Alternative.mk.injEq] at same ⊢
  have equal : elements.map (fun e => e) = elements'.map fun e => e := by
    refine Lexical.map_eq_map_of same.1 fun e inE e' inE' alike => ?_
    obtain ⟨text, place, name, type⟩ := e
    obtain ⟨text', place', name', type'⟩ := e'
    simp only [Element.relocate, Element.mk.injEq] at alike ⊢
    exact ⟨alike.1, apart _ (element inA _ inE) _ (element inB _ inE') alike.2.1, alike.2.2⟩
  exact ⟨by simpa using equal, same.2.1, apart _ (own inA) _ (own inB) same.2.2⟩

theorem backtrackings_relocate (apart : ∀ a ∈ r.ranges, ∀ b ∈ r.ranges, a.map h = b.map h → a = b) :
    backtrackings (r.relocate h) = backtrackings r := by
  have repeated : ∀ a ∈ r.alternatives, repetitions (r.alternatives.map (Alternative.relocate h))
      (a.relocate h) = repetitions r.alternatives a := by
    intro a mem
    have others : ((r.alternatives.map (Alternative.relocate h)).any fun b =>
        a.relocate h != b && startAlike (a.relocate h) b) =
          r.alternatives.any fun b => a != b && startAlike a b := by
      rw [Bool.eq_iff_iff]
      simp only [any_map, any_eq_true, Function.comp_apply, Bool.and_eq_true, bne_iff_ne,
        ne_eq, startAlike_relocate]
      refine exists_congr fun b => and_congr_right fun inside => ?_
      rw [relocate_inj apart mem inside]
    have mentions : (a.relocate h).elements.any mentionsRepetition =
        a.elements.any mentionsRepetition := by
      simp only [Alternative.relocate_elements, any_map]
      rfl
    rw [repetitions, repetitions, others, mentions, Alternative.relocate_elements,
      starsInARow_relocate]
  have deep : ∀ a, deepOptionals (a.relocate h) = deepOptionals a := by
    intro a
    have depth : nestedOptionals (a.relocate h) = nestedOptionals a := optionalDepth_relocate 0 0 _
    rw [deepOptionals, deepOptionals, depth]
  simp [backtrackings, conflicts_relocate, flatMap_map, deep, flatMap_congr repeated]

/-- Alternatives are told apart by their ranges, so these must stay apart. -/
theorem backtracking_relocate (keeps : g.KeepsOrder h) :
    backtracking.finds (g.relocate h) config = backtracking.finds g config := by
  simp only [finds, backtracking, Grammar.relocate_rules, ok_map, flatMap_map, map_flatMap,
    map_map]
  congr 1
  refine flatMap_congr fun r mem => ?_
  rw [backtrackings_relocate (keeps.inj_rule mem)]
  rfl

end Slow

section Entries

theorem looksLikeEntry_relocate (rules : List Rule) (r : Rule) :
    looksLikeEntry (rules.map (Rule.relocate h)) (r.relocate h) = looksLikeEntry rules r := by
  have names : referencedNames (rules.map (Rule.relocate h)) = referencedNames rules := by
    have refers : ∀ e, refersToRule (e.relocate h) = refersToRule e := fun _ => rfl
    simp [referencedNames, refers, flatMap_map, filter_flatMap, map_flatMap,
      filter_map, Function.comp_def]
  have first : ((rules.map (Rule.relocate h)).head?.any ((r.relocate h).same ·)) =
      rules.head?.any (r.same ·) := by
    cases rules <;> rfl
  simp only [looksLikeEntry, names, first, lowerName, Rule.relocate_name, findIdx_map]
  rfl

theorem entryRules_relocate (rules : List Rule) (mainRules : Json.Value) :
    entryRules (rules.map (Rule.relocate h)) mainRules =
      (entryRules rules mainRules).map (map (Rule.relocate h)) := by
  unfold entryRules
  split
  · exact filterM_map _
  · rw [filter_map, Rule.distinct_relocate]
    simp only [Function.comp_def, looksLikeEntry_relocate]
    rfl

theorem endsInEndOfFile_relocate (r : Rule) : endsInEndOfFile (r.relocate h) = endsInEndOfFile r := by
  simp only [endsInEndOfFile, Rule.relocate_alternatives, any_map]
  congr 1
  funext a
  simp only [Function.comp_apply, Alternative.relocate_elements, getLast?_map]
  cases a.elements.getLast? <;> rfl

theorem endOfFile_relocate : endOfFile.run (g.relocate h) config =
    (endOfFile.run g config).map (map (Issue.relocate h)) := by
  simp only [endOfFile, Grammar.relocate_kind, Grammar.relocate_parserRules, isEmpty_map]
  split
  · rfl
  · cases config.threshold "mainRules" (.arr []) with
    | error fault => rfl
    | ok mainRules =>
      simp only [ok_bind, entryRules_relocate]
      cases entryRules g.parserRules mainRules with
      | error fault => rfl
      | ok entries =>
        simp only [ok_map, ok_bind, filter_map, Function.comp_def, endsInEndOfFile_relocate]
        refine congrArg Except.ok ?_
        rw [map_map, map_map]
        refine map_congr_left fun r _ => ?_
        simp only [Function.comp_apply, Rule.relocate_alternatives, isEmpty_map]
        rfl

end Entries

end Placeless

end Check

end GrammarLint
