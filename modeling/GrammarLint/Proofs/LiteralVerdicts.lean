import GrammarLint.Proofs.LeadingElements
import GrammarLint.Proofs.NameCases
import GrammarLint.Proofs.RuleParts

open List

namespace GrammarLint

open Phrase
open Lexical (Kind Position Token Readable scan)

namespace Phrase.Tree

variable {tree spec alt e : Tree} {tokens : List Token}

def DerivedFrom (tokens : List Token) (tree : Tree) : Prop :=
  (∃ cat, tree.IsDerivation cat) ∧ tree.tokens ⊆ tokens

theorem DerivedFrom.of_mem_phrases {child : Tree} {cat : Category} (derived : tree.DerivedFrom tokens)
    (mem : child ∈ tree.phrases cat) : child.DerivedFrom tokens := by
  obtain ⟨⟨outer, derivation⟩, among⟩ := derived
  exact ⟨⟨cat, derivation.of_mem_phrases mem⟩,
    List.Subset.trans (tokens_subset_of_mem (mem_filter.mp mem).1) among⟩

theorem DerivedFrom.of_mem_specs (derived : tree.DerivedFrom tokens) (mem : spec ∈ tree.specs) :
    spec.DerivedFrom tokens := by
  obtain ⟨ruleSpec, inRules, read⟩ := mem_filterMap.mp mem
  cases found : tree.phrase? .rules with
  | none => simp [found] at inRules
  | some rules =>
    have isRuleSpec : ruleSpec ∈ rules.phrases .ruleSpec := by simpa [found] using inRules
    have within := (derived.of_mem_phrases (mem_of_mem_head? found)).of_mem_phrases isRuleSpec
    rcases Option.or_eq_some_iff.mp read with parser | ⟨-, lexer⟩
    · exact within.of_mem_phrases (mem_of_mem_head? parser)
    · exact within.of_mem_phrases (mem_of_mem_head? lexer)

/-- The elements of a rule are derived as such. -/
theorem DerivedFrom.of_mem_members (derived : spec.DerivedFrom tokens) (isChoice : alt ∈ spec.choices)
    (isMember : e ∈ alt.members) :
    e.DerivedFrom tokens ∧ (e.IsDerivation .element ∨ e.IsDerivation .lexerElement) := by
  have inside {outer inner item body part : Category}
      (mem : e ∈ spec.elementTrees outer inner item body part) :
      e.DerivedFrom tokens ∧ e.IsDerivation part := by
    obtain ⟨list, within, inList⟩ := elementTrees_within (P := DerivedFrom tokens)
      (fun derived mem => derived.of_mem_phrases mem) derived mem
    exact ⟨within.of_mem_phrases inList, within.1.choose_spec.of_mem_phrases inList⟩
  unfold choices at isChoice
  split at isChoice
  · rw [members, if_pos (category?_of_mem_alternatives isChoice)] at isMember
    exact (inside (mem_flatMap.mpr ⟨alt, isChoice, isMember⟩)).imp id .inl
  · have isLexer := category?_of_mem_alternatives isChoice
    rw [members, if_neg (by simp [isLexer])] at isMember
    exact (inside (mem_flatMap.mpr ⟨alt, isChoice, isMember⟩)).imp id .inr

theorem IsDerivation.opened {cat : Category} (derivation : tree.IsDerivation cat)
    (other : cat ≠ .argActionBlock) : Opened (tree.tokens.map (·.kind)) := by
  obtain ⟨start, stop, children, rfl, fits⟩ := derivation
  exact fits.derives.opened (uses_outer other)

theorem DerivedFrom.legible (derived : spec.DerivedFrom tokens)
    (readable : ∀ token ∈ tokens, Readable token.kind token.text.toList) (isChoice : alt ∈ spec.choices)
    (isMember : e ∈ alt.members) : e.Legible := by
  obtain ⟨⟨-, among⟩, element⟩ := derived.of_mem_members isChoice isMember
  refine ⟨fun token inside => readable token (among inside), ?_⟩
  exact element.elim (·.opened (by decide)) (·.opened (by decide))

end Phrase.Tree

theorem ElementType.name_ofText (text : List Char) :
    (ofText text).name.toList.contains '+' = false ∧ (ofText text).name.toList.contains '*' = false := by
  have names : ∀ type ∈ [terminal, charSet, tokenRef, ruleRef, suffix, unknown],
      type.name.toList.contains '+' = false ∧ type.name.toList.contains '*' = false := by decide
  refine names _ ?_
  unfold ofText
  split
  · decide
  · split_ifs <;> decide

theorem Check.mentionsRepetition_ofTree (tree : Tree) : mentionsRepetition (Element.ofTree tree) =
    (tree.text.toList.contains '+' || tree.text.toList.contains '*') := by
  obtain ⟨plus, star⟩ := ElementType.name_ofText tree.text.toList
  simp only [mentionsRepetition, Element.ofTree, any_cons, any_nil, Option.getD_none, plus, star]
  simp

section Changed

variable {σ : String → String} {literals : List String} (substitution : Substitution σ literals)
  (f : Position → Position) {tokens : List Token} {spec : Tree}
  (readable : ∀ token ∈ tokens, Readable token.kind token.text.toList)
  (known : ∀ token ∈ tokens, token.kind = .stringLiteral → token.text ∈ literals)
  (derived : spec.DerivedFrom tokens)

/-- The alternatives of a rule, each with what it is with other literals. -/
def Phrase.Tree.sides (c : Change) (spec : Tree) : List (Alternative × Alternative) :=
  spec.choices.map fun alt => (Alternative.ofTree alt, Alternative.ofTree (alt.change c))

theorem Phrase.Tree.DerivedFrom.literals_subset {tree : Tree} (derived : tree.DerivedFrom tokens)
    (known : ∀ token ∈ tokens, token.kind = .stringLiteral → token.text ∈ literals) :
    tree.literals ⊆ literals := by
  intro s mem
  obtain ⟨token, inside, isLiteral, rfl⟩ := Tree.mem_literals.mp mem
  exact known token (derived.2 inside) isLiteral

include substitution in
theorem Element.ofTree_literals {e : Tree} (legible : e.Legible) (among : e.literals ⊆ literals) :
    (Element.ofTree e).Alike (Element.ofTree (e.change (.literals f σ))) := by
  have same := Tree.operators_literals (f := f) substitution legible among
  have contains {c : Char} (isOperator : c ∈ Text.operatorChars) :
      (e.change (.literals f σ)).text.toList.contains c = e.text.toList.contains c := by
    rw [← Text.contains_operators isOperator, same, Text.contains_operators isOperator]
  refine ⟨same, ?_⟩
  rw [Check.mentionsRepetition_ofTree, Check.mentionsRepetition_ofTree, contains (by decide), contains (by decide)]

theorem Rule.ofSpec_name_literals : (ofSpec (none, spec.change (.literals f σ))).name = (ofSpec (none, spec)).name ∧
    (ofSpec (none, spec.change (.literals f σ))).isLexer = (ofSpec (none, spec)).isLexer ∧
    (ofSpec (none, spec.change (.literals f σ))).range = (ofSpec (none, spec)).range.map (Range.relocate f) := by
  have keeps {kind : Kind} (other : kind ≠ .stringLiteral) (text : String) :
      (Change.literals f σ).text kind text = text := literalText_other other text
  simp only [ofSpec, Tree.change_category?]
  split
  · exact ⟨nameIn_change (keeps (by decide)) spec, rfl, Tree.change_range spec _⟩
  · exact ⟨nameIn_change (keeps (by decide)) spec, rfl, Tree.change_range spec _⟩

include substitution readable known derived in
/-- A rule and the same with other literals. -/
theorem Rule.ofSpec_literals : (ofSpec (none, spec)).Alike (Range.relocate f) (spec.sides (.literals f σ))
    (ofSpec (none, spec.change (.literals f σ))) := by
  obtain ⟨name, isLexer, range⟩ := ofSpec_name_literals f
  refine ⟨name, isLexer, range, ?_, ?_, ?_⟩
  · rw [ofSpec_alternatives, Tree.sides, map_map]
    rfl
  · rw [ofSpec_alternatives, Tree.change_choices, Tree.sides, map_map, map_map]
    rfl
  · rw [Tree.sides, forall_mem_map]
    intro alt isChoice
    simp only [Alternative.ofTree, Tree.change_members, map_map, forall₂_map_left_iff,
      forall₂_map_right_iff]
    refine forall₂_same.mpr fun e isMember => ?_
    exact Element.ofTree_literals substitution f (derived.legible readable isChoice isMember)
      ((derived.of_mem_members isChoice isMember).1.literals_subset known)

include readable known derived in
/-- Alternatives begin alike, where literals come first in what they begin with. -/
theorem sameLead_literals (first : ∀ e ∈ spec.leads, e.LiteralsFirst) :
    ∀ side ∈ spec.sides (.literals f σ), SameLead σ literals side := by
  rw [Tree.sides, forall_mem_map]
  intro alt isChoice
  have own := Alternative.firstText?_ofTree alt
  have image := Alternative.firstText?_change (.literals f σ) alt
  cases lead : alt.members.head? with
  | none => exact ⟨by rw [image, own, lead]; rfl, by simp [own, lead]⟩
  | some e =>
    have isMember := mem_of_mem_head? lead
    have isLead : e ∈ spec.leads := mem_filterMap.mpr ⟨alt, isChoice, lead⟩
    obtain ⟨reworded, worded⟩ := Tree.text_literals (derived.legible readable isChoice isMember)
      (first e isLead) ((derived.of_mem_members isChoice isMember).1.literals_subset known)
    refine ⟨?_, ?_⟩
    · rw [image, own, lead, Option.map_some, Option.map_some, Option.map_some, reworded]
    · simpa [own, lead] using worded

/-- Where an alternative of a rule begins with an optional group, none begins with a literal or has one in
what it begins with. -/
def Phrase.Tree.PlainLeads (spec : Tree) : Prop :=
  (∃ e ∈ spec.leads, Check.opensOptional e.text = true) → ∀ e ∈ spec.leads, e.literals = []

theorem plainGroups_literals (plain : spec.PlainLeads) : Check.PlainGroups (spec.sides (.literals f σ)) := by
  rintro ⟨side, mem, opens⟩
  obtain ⟨alt, isChoice, rfl⟩ := mem_map.mp mem
  rw [Alternative.firstText?_ofTree] at opens
  have group : ∃ e ∈ spec.leads, Check.opensOptional e.text = true := by
    cases lead : alt.members.head? with
    | none => simp [lead] at opens
    | some e =>
      exact ⟨e, mem_filterMap.mpr ⟨alt, isChoice, lead⟩, by simpa [lead] using opens⟩
  rw [Tree.sides, forall_mem_map]
  intro alt isChoice
  rw [Alternative.firstText?_change, Alternative.firstText?_ofTree]
  refine Option.map_congr fun e lead => ?_
  exact Tree.text_unquoted (plain group e (mem_filterMap.mpr ⟨alt, isChoice, lead⟩))

end Changed

section Texts

variable {text other : List Char}

theorem readable_tokens (text : List Char) :
    ∀ token ∈ mainTokens text ++ [Token.endOfFile (scan text).finish],
      Readable token.kind token.text.toList := by
  refine forall_mem_append.mpr ⟨fun token mem => ?_, ?_⟩
  · exact (Lexical.scan_origin text token (mem_filter.mp mem).1).readable
  · have outer : Kind.endOfFile ≠ .stringLiteral ∧ Kind.endOfFile ∉ Lexical.openers ∧
        Text.Quiet "<EOF>".toList := by decide
    simp only [mem_singleton, forall_eq]
    exact ⟨fun literal => absurd literal outer.1, fun opener => absurd opener outer.2.1, fun _ _ _ => outer.2.2⟩

def literalsOf (text : List Char) : List String :=
  ((words text).filter (·.1 == .stringLiteral)).map (·.2)

variable {s : String}

theorem mem_literalsOf : s ∈ literalsOf text ↔
    ∃ token ∈ mainTokens text, token.kind = .stringLiteral ∧ token.text = s := by
  simp [literalsOf, words, and_assoc]

theorem literals_known (text : List Char) : ∀ token ∈ mainTokens text ++ [Token.endOfFile (scan text).finish],
    token.kind = .stringLiteral → token.text ∈ literalsOf text := by
  intro token mem literal
  rcases mem_append.mp mem with scanned | atEnd
  · exact mem_literalsOf.mpr ⟨token, scanned, literal, rfl⟩
  · rw [mem_singleton.mp atEnd] at literal
    cases literal

theorem isLiteral_of_mem (mem : s ∈ literalsOf text) : Text.IsLiteral s.toList := by
  obtain ⟨token, inside, isLiteral, rfl⟩ := mem_literalsOf.mp mem
  exact (readable_tokens text token (mem_append_left _ inside)).literal isLiteral

def exchangeLiteral (σ : String → String) (word : Kind × String) : Kind × String :=
  (word.1, if word.1 = .stringLiteral then σ word.2 else word.2)

/-- A text without faults, and one that has another literal for each of its literals. -/
structure Exchanged (σ : String → String) (text other : List Char) : Prop where
  faultless : (parse .grammarSpec text).errors = []
  same : words other = (words text).map (exchangeLiteral σ)
  injective : ∀ s ∈ literalsOf text, ∀ t ∈ literalsOf text, σ s = σ t → s = t

instance (σ : String → String) (text other : List Char) : Decidable (Exchanged σ text other) :=
  decidable_of_iff (_ ∧ _ ∧ _) ⟨fun ⟨faultless, same, injective⟩ => ⟨faultless, same, injective⟩,
    fun ⟨faultless, same, injective⟩ => ⟨faultless, same, injective⟩⟩

variable {σ : String → String} (same : words other = (words text).map (exchangeLiteral σ))

include same

theorem exchange_mem (mem : s ∈ literalsOf text) : σ s ∈ literalsOf other := by
  obtain ⟨⟨kind, _⟩, inWords, rfl⟩ := mem_map.mp mem
  obtain ⟨inWords, isLiteral⟩ := mem_filter.mp inWords
  obtain rfl := eq_of_beq isLiteral
  refine mem_map.mpr ⟨(.stringLiteral, σ _), mem_filter.mpr ⟨?_, rfl⟩, rfl⟩
  rw [same]
  exact mem_map.mpr ⟨_, inWords, rfl⟩

theorem exchange_eq : words other = (words text).map fun word => (word.1, literalText σ word.1 word.2) := by
  rw [same]
  refine map_congr_left fun word mem => ?_
  by_cases literal : word.1 = .stringLiteral
  · have inLiterals : word.2 ∈ literalsOf text :=
      mem_map.mpr ⟨word, mem_filter.mpr ⟨mem, by simp [literal]⟩, rfl⟩
    rw [exchangeLiteral, literalText, if_pos literal, if_pos ⟨literal, (isLiteral_of_mem inLiterals).head?⟩]
  · rw [exchangeLiteral, literalText_other literal, if_neg literal]

theorem exchange_faultless (faultless : (parse .grammarSpec text).errors = []) :
    (parse .grammarSpec other).errors = [] := by
  obtain ⟨children, stop, -, fits, leaves⟩ := parseTokens_unfailed (start_proper text) faultless
  have kinds : (mainTokens other).map (·.kind) = (mainTokens text).map (·.kind) := by
    have firsts := congrArg (map Prod.fst) same
    simpa [words, exchangeLiteral, Function.comp_def] using firsts
  have derives : Derives Category.grammarSpec.form ((mainTokens other).map (·.kind) ++ [.endOfFile]) := by
    rw [kinds]
    simpa [leaves, Token.endOfFile] using fits.derives
  exact parseTokens_of_derives (start_proper other) derives

/-- The rules of a text with other literals are read from the same phrases, changed. -/
theorem Grammar.rules_exchange (file : String) : ∃ f : Position → Position,
    (ofText file other).rules =
      (parse .grammarSpec text).tree.specs.map fun spec => Rule.ofSpec (none, spec.change (.literals f σ)) := by
  obtain ⟨f, changed, -⟩ := parse_change (literalText σ) (Change.literals (fun place => place) σ).text_missing
    (literalText_other (by decide) _) (exchange_eq same)
  refine ⟨f, ?_⟩
  rw [ofText, changed, rules_ofTree, Tree.change_specs, map_map]
  rfl

end Texts

namespace Grammar

variable {text : List Char}

theorem specs_derived (faultless : (parse .grammarSpec text).errors = []) :
    ∀ spec ∈ (parse .grammarSpec text).tree.specs,
      spec.DerivedFrom (mainTokens text ++ [.endOfFile (scan text).finish]) := by
  intro spec mem
  obtain ⟨derivation, tokens⟩ := parse_derivation faultless
  exact Tree.DerivedFrom.of_mem_specs ⟨⟨_, derivation⟩, tokens ▸ List.Subset.refl _⟩ mem

theorem ofText_nested (faultless : (parse .grammarSpec text).errors = []) (file : String) :
    ∀ r ∈ (ofText file text).rules, r.Nested := by
  rw [ofText, ofTree]
  cases found : (parse .grammarSpec text).tree.phrase? .rules with
  | none => simp
  | some rules => exact (rules_nested (laid_rules faultless found)).1

/-- The names of rules hold no quotes or brackets. -/
theorem ofText_quiet (faultless : (parse .grammarSpec text).errors = []) (file : String) :
    ∀ r ∈ (ofText file text).rules, Text.Quiet r.name.toList := by
  intro r mem
  obtain ⟨derivation, tokens⟩ := parse_derivation faultless
  obtain ⟨token, inTree, isKind, named⟩ := rules_named derivation r mem
  have plain : ∀ kind ∈ [Kind.tokenRef, .ruleRef], kind ≠ .stringLiteral ∧ kind ∉ Lexical.openers ∧
      kind ∉ Lexical.innerKinds := by decide
  obtain ⟨noLiteral, noOpener, outer⟩ := plain token.kind (by
    rw [isKind, Rule.nameKind]
    split <;> simp)
  rw [named]
  exact (readable_tokens text token (tokens ▸ inTree)).quiet noLiteral noOpener outer

end Grammar

namespace Check

/-- The checks of the structure of rules find the same in texts that differ in their literals only, if
these have the same operators in them. For the checks that compare what alternatives begin with, no literal must
stand behind an action, an argument or a set there; and where one begins with an optional group, none must have
a literal there. -/
theorem verdicts_of_literals (file : String) (config : RuleConfig) (text other : List Char)
    (σ : String → String) (exchanged : Exchanged σ text other)
    (operators : ∀ s ∈ literalsOf text, Text.operators (σ s).toList = Text.operators s.toList) :
    ∃ h : Range → Range,
      (Grammar.ofText file other).rules.map (fun r => (r.name, r.range)) =
        (Grammar.ofText file text).rules.map (fun r => (r.name, r.range.map h)) ∧
      (∀ check ∈ [complexity, deepNesting, ruleDocumentation], check.run (Grammar.ofText file other) config =
        (check.run (Grammar.ofText file text) config).map (List.map (Issue.relocate h))) ∧
      ((∀ spec ∈ (parse .grammarSpec text).tree.specs, ∀ e ∈ spec.leads, e.LiteralsFirst) →
        (∃ issues issues', ambiguity.run (Grammar.ofText file text) config = .ok issues ∧
          ambiguity.run (Grammar.ofText file other) config = .ok issues' ∧
          List.Forall₂ (Issue.Reworded σ h) issues issues') ∧
        ((∀ spec ∈ (parse .grammarSpec text).tree.specs, spec.PlainLeads) →
          backtracking.run (Grammar.ofText file other) config =
            (backtracking.run (Grammar.ofText file text) config).map (List.map (Issue.relocate h)))) := by
  obtain ⟨faultless, same, injective⟩ := exchanged
  have substitution : Substitution σ (literalsOf text) :=
    ⟨fun s member => isLiteral_of_mem (exchange_mem same member), injective, operators⟩
  obtain ⟨f, rules'⟩ := Grammar.rules_exchange same file
  have rules : (Grammar.ofText file text).rules = _ := Grammar.rules_ofTree file (parse .grammarSpec text).tree
  have derived := Grammar.specs_derived faultless
  have alike : ∀ spec ∈ (parse .grammarSpec text).tree.specs, (Rule.ofSpec (none, spec)).Alike (Range.relocate f)
      (spec.sides (.literals f σ)) (Rule.ofSpec (none, spec.change (.literals f σ))) := fun spec member =>
    Rule.ofSpec_literals substitution f (readable_tokens text) (literals_known text) (derived spec member)
  have leads (first : ∀ spec ∈ (parse .grammarSpec text).tree.specs, ∀ e ∈ spec.leads, e.LiteralsFirst) :
      ∀ spec ∈ (parse .grammarSpec text).tree.specs, ∀ side ∈ spec.sides (.literals f σ),
        SameLead σ (literalsOf text) side := fun spec member =>
    sameLead_literals f (readable_tokens text) (literals_known text) (derived spec member) (first spec member)
  -- What holds of each phrase of a rule and the changed one holds of the rules in their order.
  have each {R : Rule → Rule → Prop} (pair : ∀ spec ∈ (parse .grammarSpec text).tree.specs,
      R (Rule.ofSpec (none, spec)) (Rule.ofSpec (none, spec.change (.literals f σ)))) :
      List.Forall₂ R (Grammar.ofText file text).rules (Grammar.ofText file other).rules := by
    rw [rules, rules', List.forall₂_map_left_iff, List.forall₂_map_right_iff]
    exact List.forall₂_same.mpr pair
  have sizes := each (R := fun r r' => ∃ sides, r.Alike (Range.relocate f) sides r') fun spec member =>
    ⟨_, alike spec member⟩
  refine ⟨Range.relocate f, ?_, ?_, fun first => ⟨?_, fun plain => ?_⟩⟩
  · rw [rules, rules', map_map, map_map]
    refine map_congr_left fun spec member => ?_
    exact Prod.ext (alike spec member).name (alike spec member).range
  · simp only [mem_cons, not_mem_nil, or_false]
    rintro check (rfl | rfl | rfl)
    · exact complexity_alike rfl sizes
    · exact deepNesting_alike rfl sizes
    · exact ruleDocumentation_alike rfl sizes
  · refine ambiguity_alike substitution config rfl (each fun spec member =>
      ⟨_, alike spec member, ?_, leads first spec member⟩)
    exact Grammar.ofText_quiet faultless file _ (rules ▸ mem_map_of_mem member)
  · refine backtracking_alike substitution config rfl (each fun spec member =>
      ⟨_, alike spec member, ?_, ?_, leads first spec member, plainGroups_literals f (plain spec member)⟩)
    · exact Grammar.ofText_nested faultless file _ (rules ▸ mem_map_of_mem member)
    · exact Grammar.ofText_nested (exchange_faultless same faultless) file _
        (rules' ▸ mem_map.mpr ⟨spec, member, rfl⟩)

/-- Alternatives with the same literal in front, and an optional group in front of a literal. -/
def sharedFronts (a b : String) : List Char :=
  ("grammar G;r:" ++ a ++ "x|" ++ a ++ ";x:(r)?" ++ b ++ "|r;").toList

theorem verdicts_of_literals_sharedFronts :
    Exchanged (Equiv.swap "'a'" "'b'") (sharedFronts "'a'" "'b'") (sharedFronts "'b'" "'a'") ∧
    ∃ h issues issues', ambiguity.run (Grammar.ofText "G.g4" (sharedFronts "'a'" "'b'")) {} = .ok issues ∧
      ambiguity.run (Grammar.ofText "G.g4" (sharedFronts "'b'" "'a'")) {} = .ok issues' ∧
      issues.length = 2 ∧ List.Forall₂ (Issue.Reworded (Equiv.swap "'a'" "'b'") h) issues issues' ∧
      backtracking.run (Grammar.ofText "G.g4" (sharedFronts "'b'" "'a'")) {} =
        (backtracking.run (Grammar.ofText "G.g4" (sharedFronts "'a'" "'b'")) {}).map
          (List.map (Issue.relocate h)) := by
  -- One evaluation for all, as the parser runs in each of them.
  obtain ⟨exchanged, operators, two, first, plain⟩ :
      Exchanged (Equiv.swap "'a'" "'b'") (sharedFronts "'a'" "'b'") (sharedFronts "'b'" "'a'") ∧
      (∀ s ∈ literalsOf (sharedFronts "'a'" "'b'"),
        Text.operators (Equiv.swap "'a'" "'b'" s).toList = Text.operators s.toList) ∧
      (ambiguity.run (Grammar.ofText "G.g4" (sharedFronts "'a'" "'b'")) {}).toOption.map List.length = some 2 ∧
      (∀ spec ∈ (parse .grammarSpec (sharedFronts "'a'" "'b'")).tree.specs, ∀ e ∈ spec.leads, e.LiteralsFirst) ∧
      ∀ spec ∈ (parse .grammarSpec (sharedFronts "'a'" "'b'")).tree.specs, spec.PlainLeads := by
    unfold Tree.LiteralsFirst Tree.PlainLeads
    decide +kernel
  obtain ⟨h, -, -, compared⟩ := verdicts_of_literals "G.g4" {} _ _ _ exchanged operators
  obtain ⟨⟨issues, issues', run, run', reworded⟩, backtracks⟩ := compared first
  rw [run] at two
  exact ⟨exchanged, h, issues, issues', run, run', Option.some.inj two, reworded, backtracks plain⟩

def messages (check : Check) (text : String) : Option (List String) :=
  (check.run (Grammar.ofText "G.g4" text.toList) {}).toOption.map (map (·.message))

/-- Literals are seen: a question mark in one makes a rule complex; a group of one is taken to meet the rule that
is named like it; and one behind an argument can be told from the same characters in an argument. -/
theorem literals_seen :
    (Exchanged (Equiv.swap "'a'" "'?'") "grammar G;r:'a'EOF;".toList "grammar G;r:'?'EOF;".toList ∧
      messages ruleDocumentation "grammar G;r:'a'EOF;" = some [] ∧
      messages ruleDocumentation "grammar G;r:'?'EOF;" = some ["Complex rule 'r' lacks documentation"]) ∧
    (Exchanged (Equiv.swap "'a'" "'b'") "grammar G;r:('b')?|a;".toList "grammar G;r:('a')?|a;".toList ∧
      messages backtracking "grammar G;r:('b')?|a;" = some [] ∧
      messages backtracking "grammar G;r:('a')?|a;" =
        some ["Rule 'r' may cause excessive backtracking: optional prefix may cause backtracking"]) ∧
    (Exchanged (Equiv.swap "'a'" "'b'") "grammar G;r:(x[\"]\n'b'x[\"])\n|(x[\"]'a'x[\"]);".toList
        "grammar G;r:(x[\"]\n'a'x[\"])\n|(x[\"]'a'x[\"]);".toList ∧
      messages ambiguity "grammar G;r:(x[\"]\n'b'x[\"])\n|(x[\"]'a'x[\"]);" = some [] ∧
      messages ambiguity "grammar G;r:(x[\"]\n'a'x[\"])\n|(x[\"]'a'x[\"]);" =
        some [
          "Rule 'r' has potentially ambiguous alternatives: alternatives 1 and 2 start with same token '(x[\"]'a'x[\"])'"]) := by
  decide +kernel

end Check

end GrammarLint
