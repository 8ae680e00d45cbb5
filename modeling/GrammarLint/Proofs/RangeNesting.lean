import GrammarLint.Proofs.Layout
import GrammarLint.Proofs.PhraseBounds
import GrammarLint.Proofs.TokenUses

open List

namespace GrammarLint

open Phrase
open Lexical (Kind Position Token scan)

namespace Range

def start (range : Range) : ℤ ×ₗ ℤ := toLex (range.startLine, range.startColumn)

/-- Where a range ends, which is where its last token starts. -/
def stop (range : Range) : ℤ ×ₗ ℤ := toLex (range.endLine, range.endColumn)

end Range

/-- Where a token starts, as ranges have it. -/
def Lexical.Position.place (position : Position) : ℤ ×ₗ ℤ := toLex (position.line, position.column + 1)

theorem Lexical.Position.Precedes.place_lt {p q : Position} (before : p.Precedes q) : p.place < q.place := by
  unfold Precedes at before
  rw [place, place, Prod.Lex.toLex_lt_toLex]
  omega

def Lexical.Sorted (tokens : List Token) : Prop :=
  tokens.Pairwise fun a b => a.position.place < b.position.place

theorem mainTokens_places (text : List Char) :
    Lexical.Sorted (mainTokens text ++ [Token.endOfFile (scan text).finish]) :=
  (pairwise_map.mp (mainTokens_sorted text)).imp Position.Precedes.place_lt

namespace Range

/-- The range goes from the first to the last of some tokens. -/
structure Spans (range : Range) (tokens : List Token) : Prop where
  first : ∃ token ∈ tokens, range.start = token.position.place
  last : ∃ token ∈ tokens, range.stop = token.position.place
  within : ∀ token ∈ tokens, range.start ≤ token.position.place ∧ token.position.place ≤ range.stop

namespace Spans

variable {range other : Range} {us vs tokens : List Token}

theorem start_le_stop (spans : range.Spans tokens) : range.start ≤ range.stop := by
  obtain ⟨token, mem, start⟩ := spans.first
  exact start ▸ (spans.within token mem).2

/-- Ranges of tokens one behind the other. -/
theorem stop_lt_start (spans : range.Spans us) (spans' : other.Spans vs)
    (before : ∀ x ∈ us, ∀ y ∈ vs, x.position.place < y.position.place) : range.stop < other.start := by
  obtain ⟨last, inUs, stop⟩ := spans.last
  obtain ⟨first, inVs, start⟩ := spans'.first
  rw [stop, start]
  exact before last inUs first inVs

/-- The range of tokens among which others have some in front and some behind them. -/
theorem inside {before between after : List Token} (spans : range.Spans (before ++ (between ++ after)))
    (sorted : Lexical.Sorted (before ++ (between ++ after))) (front : before ≠ []) (back : after ≠ [])
    (inner : other.Spans tokens) (among : tokens ⊆ between) :
    range.start < other.start ∧ other.stop < range.stop := by
  obtain ⟨-, later, order⟩ := pairwise_append.mp sorted
  obtain ⟨-, -, order'⟩ := pairwise_append.mp later
  obtain ⟨x, inFront⟩ := exists_mem_of_ne_nil before front
  obtain ⟨y, inBack⟩ := exists_mem_of_ne_nil after back
  obtain ⟨first, isFirst, start⟩ := inner.first
  obtain ⟨last, isLast, stop⟩ := inner.last
  constructor
  · rw [start]
    refine lt_of_le_of_lt (spans.within x (by simp [inFront])).1 (order x inFront first ?_)
    exact mem_append_left _ (among isFirst)
  · rw [stop]
    exact lt_of_lt_of_le (order' last (among isLast) y inBack) (spans.within y (by simp [inBack])).2

end Spans

end Range

namespace Phrase

section Solid

variable {categories : List Category} {form : Form} {trees : List Tree}

/-- Each word of the form has a token, if each word of these categories has one. -/
def Form.solid (categories : List Category) : Form → Bool
  | .token _ _ | .oneOf _ _ => true
  | .call _ cat => categories.contains cat
  | .seq f g => f.solid categories || g.solid categories
  | .alt f g => f.solid categories && g.solid categories
  | .choice _ _ f | .plus _ _ f => f.solid categories
  | .empty | .optional _ _ _ | .star _ _ _ _ _ | .rounds _ _ _ _ => false

theorem Fits.tokens_ne_nil (closed : ∀ cat ∈ categories, cat.form.solid categories = true)
    (fits : Fits form trees) (solid : form.solid categories = true) : Tree.tokensOf trees ≠ [] := by
  induction fits with
  | empty | absent | star | stop | round | present => cases solid
  | token | oneOf => simp [Tree.tokensOf, Tree.tokens]
  | call _ ih =>
    have inside := ih (closed _ (by simpa [Form.solid] using solid))
    simpa [Tree.tokensOf, Tree.tokens] using inside
  | seq _ _ first second =>
    rw [Tree.tokensOf_append]
    rw [Form.solid, Bool.or_eq_true] at solid
    exact fun none => solid.elim (fun left => first left (append_eq_nil_iff.mp none).1)
      fun right => second right (append_eq_nil_iff.mp none).2
  | left _ ih => exact ih (Bool.and_eq_true_iff.mp solid).1
  | right _ ih => exact ih (Bool.and_eq_true_iff.mp solid).2
  | choice _ ih => exact ih solid
  | plus _ _ first _ =>
    rw [Tree.tokensOf_append]
    exact fun none => first solid (append_eq_nil_iff.mp none).1

/-- Elements and what they may begin with, and the rules. -/
def solidCategories : List Category :=
  [.parserRuleSpec, .lexerRuleSpec, .element, .lexerElement, .labeledElement, .identifier, .atom, .terminalDef,
    .ruleRef, .notSet, .wildcard, .ebnf, .block, .actionBlock, .lexerAtom, .lexerBlock, .characterRange]

theorem solidCategories_closed :
    ∀ cat ∈ solidCategories, cat.form.solid solidCategories = true := by
  decide

theorem Tree.IsDerivation.tokens_ne_nil {cat : Category} {tree : Tree}
    (derivation : tree.IsDerivation cat) (solid : cat ∈ solidCategories) : tree.tokens ≠ [] := by
  obtain ⟨start, stop, children, rfl, fits⟩ := derivation
  exact fits.tokens_ne_nil solidCategories_closed (solidCategories_closed cat solid)

end Solid

namespace Tree

section Parts

variable {tree child : Tree} {cat outer inner item body part : Category}

theorem tokens_phrases : ((tree.phrases cat).flatMap tokens).Sublist tree.tokens := by
  cases tree with
  | phrase own start stop children =>
    rw [tokens, tokensOf_eq_flatMap]
    exact filter_sublist.flatMap _
  | leaf | error => simp [phrases, children]

theorem tokens_phrase? (found : tree.phrase? cat = some child) : child.tokens.Sublist tree.tokens := by
  have single : [child].Sublist (tree.phrases cat) :=
    singleton_sublist.mpr (mem_of_mem_head? found)
  have within := (single.flatMap tokens).trans tokens_phrases
  rwa [flatMap_singleton] at within

/-- A phrase that is derived, with its bounds, and with tokens in the order of their places. -/
structure Laid (cat : Category) (tree : Tree) : Prop where
  derivation : tree.IsDerivation cat
  bounded : tree.Bounded
  sorted : Lexical.Sorted tree.tokens

theorem Laid.of_mem (laid : tree.Laid outer) (member : child ∈ tree.phrases cat) :
    child.Laid cat := by
  have isChild := (mem_filter.mp member).1
  have within := (singleton_sublist.mpr member).flatMap tokens
  rw [flatMap_singleton] at within
  refine ⟨laid.derivation.of_mem_phrases member, ?_, laid.sorted.sublist (within.trans tokens_phrases)⟩
  cases laid.bounded with
  | leaf | error => simp [children] at isChild
  | phrase _ _ each => exact each child isChild

/-- The range of a phrase with tokens goes from the first to the last of them. -/
theorem Laid.range_spans (laid : tree.Laid cat) (solid : cat ∈ solidCategories) :
    ∃ range, tree.range = some range ∧ range.Spans tree.tokens := by
  obtain ⟨derivation, bounded, sorted⟩ := laid
  have nonempty := derivation.tokens_ne_nil solid
  obtain ⟨start, stop, children, rfl, -⟩ := derivation
  cases bounded with
  | phrase begins ends _ =>
    have isFirst := begins _ (head?_eq_some_head nonempty)
    have isLast := ends _ (getLast?_eq_some_getLast nonempty)
    have weak := sorted.imp le_of_lt
    refine ⟨_, rfl, ⟨_, head_mem nonempty, by rw [isFirst]; rfl⟩,
      ⟨_, getLast_mem nonempty, by rw [isLast]; rfl⟩, fun token mem => ⟨?_, ?_⟩⟩
    · have least := weak.rel_head_of_rel_head_head mem le_rfl
      rwa [isFirst] at least
    · have greatest := weak.rel_getLast_of_rel_getLast_getLast mem le_rfl
      rw [isLast]
      exact greatest

/-- The tokens of the alternatives of a rule are in its block, in their order. -/
theorem tokens_alternatives (found : tree.phrase? outer = some child) :
    ((tree.alternatives outer inner item).flatMap tokens).Sublist child.tokens := by
  rw [alternatives, found, Option.bind_some]
  cases listed : child.phrase? inner with
  | none => simp
  | some list => exact tokens_phrases.trans (tokens_phrase? listed)

theorem tokens_elementsIn : ((tree.elementsIn body part).flatMap tokens).Sublist tree.tokens := by
  rw [elementsIn]
  cases found : tree.phrase? body with
  | none => simp
  | some list => exact tokens_phrases.trans (tokens_phrase? found)

def elementTrees (tree : Tree) (outer inner item body part : Category) : List Tree :=
  (tree.alternatives outer inner item).flatMap (elementsIn · body part)

theorem tokens_elementTrees (found : tree.phrase? outer = some child) :
    ((tree.elementTrees outer inner item body part).flatMap tokens).Sublist child.tokens := by
  rw [elementTrees, flatMap_assoc]
  exact (List.Sublist.flatMap_right _ fun alt _ => tokens_elementsIn).trans (tokens_alternatives found)

/-- A property that goes from phrases to the phrases in them goes from a rule to what its elements
stand in. -/
theorem elementTrees_within {P : Tree → Prop}
    (step : ∀ {tree child : Tree} {cat : Category}, P tree → child ∈ tree.phrases cat → P child)
    (whole : P tree) {e : Tree} (mem : e ∈ tree.elementTrees outer inner item body part) :
    ∃ list, P list ∧ e ∈ list.phrases part := by
  obtain ⟨alt, inAlternatives, inBody⟩ := mem_flatMap.mp mem
  unfold alternatives at inAlternatives
  cases listed : (tree.phrase? outer).bind (·.phrase? inner) with
  | none => simp [listed] at inAlternatives
  | some list =>
    obtain ⟨block, blocked, isList⟩ := Option.bind_eq_some_iff.mp listed
    have inList : alt ∈ list.phrases item := by simpa [listed] using inAlternatives
    have onAlt : P alt := step (step (step whole (mem_of_mem_head? blocked))
      (mem_of_mem_head? isList)) inList
    unfold elementsIn at inBody
    cases found : alt.phrase? body with
    | none => simp [found] at inBody
    | some elements =>
      exact ⟨elements, step onAlt (mem_of_mem_head? found), by simpa [found] using inBody⟩

end Parts

end Tree

section Enclosed

variable {cat outer : Category}

/-- The form has a token, a call for the category behind it, and some token behind that. -/
def Form.encloses (cat : Category) : Form → Bool
  | .seq (.token _ _) (.seq (.call _ inner) g) => inner == cat && g.solid []
  | .seq _ g => g.encloses cat
  | _ => false

theorem Fits.enclosed {form : Form} {trees : List Tree} (fits : Fits form trees)
    (encloses : form.encloses cat = true) :
    ∃ us block vs, trees = us ++ block :: vs ∧ block.IsDerivation cat ∧ Tree.tokensOf us ≠ [] ∧
      Tree.tokensOf vs ≠ [] := by
  fun_induction Form.encloses cat form generalizing trees with
  | case1 _ _ _ inner g =>
    obtain ⟨isInner, solid⟩ := Bool.and_eq_true_iff.mp encloses
    obtain rfl := eq_of_beq isInner
    obtain ⟨_, _, rfl, first, later⟩ := fits.seq_inv
    obtain ⟨_, vs, rfl, called, behind⟩ := later.seq_inv
    obtain ⟨token, rfl⟩ := first.token_inv
    obtain ⟨block, rfl, isBlock⟩ := called.call_inv
    refine ⟨[.leaf token], block, vs, rfl, isBlock, by simp [Tree.tokensOf, Tree.tokens], ?_⟩
    exact behind.tokens_ne_nil (by simp) solid
  | case2 f g _ ih =>
    obtain ⟨front, _, rfl, -, later⟩ := fits.seq_inv
    obtain ⟨us, block, vs, rfl, isBlock, before, after⟩ := ih later encloses
    refine ⟨front ++ us, block, vs, by simp, isBlock, ?_, after⟩
    rw [Tree.tokensOf_append]
    exact fun none => before (append_eq_nil_iff.mp none).2
  | case3 => cases encloses

/-- The one phrase of a category has tokens in front of it and behind it. -/
theorem Tree.IsDerivation.enclosed {spec : Tree} (derivation : spec.IsDerivation outer)
    (one : outer.form.fixed cat = some 1) (encloses : outer.form.encloses cat = true) :
    ∃ before block after, spec.phrase? cat = some block ∧ before ≠ [] ∧ after ≠ [] ∧
      spec.tokens = before ++ (block.tokens ++ after) := by
  obtain ⟨inner, phrases, found⟩ := derivation.phrases_eq one
  obtain ⟨start, stop, children, rfl, fits⟩ := derivation
  obtain ⟨us, block, vs, rfl, isBlock, before, after⟩ := fits.enclosed encloses
  have only : block = inner := by
    have member : block ∈ (Tree.phrase outer start stop (us ++ block :: vs)).phrases cat := by
      obtain ⟨_, _, _, rfl, -⟩ := isBlock
      simp [Tree.phrases, Tree.children, Tree.category?]
    simpa [phrases] using member
  refine ⟨Tree.tokensOf us, block, Tree.tokensOf vs, only ▸ found, before, after, ?_⟩
  rw [Tree.tokens, Tree.tokensOf_append, Tree.tokensOf]

end Enclosed

end Phrase

/-- The ranges of a rule: each element has its own, strictly inside that of the rule, and the elements
lie one behind the other, through all alternatives. -/
structure Rule.Nested (r : Rule) : Prop where
  inside : ∃ whole, r.range = some whole ∧ whole.start ≤ whole.stop ∧
    ∀ e ∈ r.elements, ∃ part, e.range = some part ∧ part.start ≤ part.stop ∧
      whole.start < part.start ∧ part.stop < whole.stop
  ordered : r.elements.Pairwise fun a b => ∀ x ∈ a.range, ∀ y ∈ b.range, x.stop < y.start

section Specs

variable {tree spec : Tree} {cat outer inner item body part : Category} {r : Rule}

variable (spec outer inner item body part) in
/-- A rule that is read from a phrase with a block. -/
theorem Rule.nested_of_spec (laid : spec.Laid cat) (solid : cat ∈ solidCategories)
    (one : cat.form.fixed outer = some 1) (encloses : cat.form.encloses outer = true)
    (solidPart : part ∈ solidCategories) (range : r.range = spec.range)
    (elements : r.elements = (spec.elementTrees outer inner item body part).map Element.ofTree) :
    r.Nested := by
  obtain ⟨before, block, after, found, front, back, tokens⟩ := laid.derivation.enclosed one encloses
  obtain ⟨whole, isWhole, spans⟩ := laid.range_spans solid
  have inBlock := @Tree.tokens_elementTrees spec block outer inner item body part found
  have order := (pairwise_flatMap.mp (laid.sorted.sublist (inBlock.trans (Tree.tokens_phrase? found)))).2
  have each : ∀ e ∈ spec.elementTrees outer inner item body part,
      ∃ range, e.range = some range ∧ range.Spans e.tokens := by
    intro e member
    obtain ⟨list, ⟨_, laidList⟩, inList⟩ := Tree.elementTrees_within
      (P := fun tree => ∃ cat, tree.Laid cat)
      (fun here isPhrase => ⟨_, here.choose_spec.of_mem isPhrase⟩) ⟨cat, laid⟩ member
    exact (laidList.of_mem inList).range_spans solidPart
  refine ⟨⟨whole, range.trans isWhole, spans.start_le_stop, ?_⟩, ?_⟩
  · rw [elements, forall_mem_map]
    intro e member
    obtain ⟨inner, isInner, innerSpans⟩ := each e member
    refine ⟨inner, isInner, innerSpans.start_le_stop, ?_⟩
    refine (tokens ▸ spans).inside (tokens ▸ laid.sorted) front back innerSpans ?_
    exact fun token inside => inBlock.subset (mem_flatMap.mpr ⟨e, member, inside⟩)
  · rw [elements, pairwise_map]
    refine order.imp_of_mem fun {a b} inA inB apart x isX y isY => ?_
    obtain ⟨rangeA, isA, spansA⟩ := each a inA
    obtain ⟨rangeB, isB, spansB⟩ := each b inB
    cases isA.symm.trans isX
    cases isB.symm.trans isY
    exact spansA.stop_lt_start spansB apart

theorem Rule.ofParserTree_nested (laid : spec.Laid .parserRuleSpec) : (ofParserTree spec).Nested := by
  refine nested_of_spec spec .ruleBlock .ruleAltList .labeledAlt .alternative .element laid
    (by decide) (by decide) (by decide) (by decide) rfl ?_
  simp [elements, ofParserTree, parserAlternatives_eq, Tree.elementTrees, flatMap_map, map_flatMap]

theorem Rule.ofLexerTree_nested (laid : spec.Laid .lexerRuleSpec) : (ofLexerTree spec).Nested := by
  refine nested_of_spec spec .lexerRuleBlock .lexerAltList .lexerAlt .lexerElements .lexerElement laid
    (by decide) (by decide) (by decide) (by decide) rfl ?_
  simp [elements, ofLexerTree, lexerAlternatives_eq, Tree.elementTrees, flatMap_map, map_flatMap]

/-- A rule has its ranges nested, and its own goes from one token of its phrase to another. -/
theorem Rule.ofTree?_nested (laid : tree.Laid .ruleSpec) (read : ofTree? tree = some r) :
    r.Nested ∧ ∃ range, r.range = some range ∧ ∃ tokens ⊆ tree.tokens, range.Spans tokens := by
  unfold ofTree? at read
  split at read
  · rename_i spec found
    cases read
    have laidSpec := laid.of_mem (mem_of_mem_head? found)
    obtain ⟨range, isRange, spans⟩ := laidSpec.range_spans (by decide)
    exact ⟨ofParserTree_nested laidSpec, range, isRange, _, (Tree.tokens_phrase? found).subset, spans⟩
  · rename_i spec _ found
    cases read
    have laidSpec := laid.of_mem (mem_of_mem_head? found)
    obtain ⟨range, isRange, spans⟩ := laidSpec.range_spans (by decide)
    exact ⟨ofLexerTree_nested laidSpec, range, isRange, _, (Tree.tokens_phrase? found).subset, spans⟩
  · cases read

end Specs

namespace Grammar

variable {tree : Tree}

/-- The rules of a phrase lie one behind the other. -/
theorem rules_nested (laid : tree.Laid .rules) :
    (∀ r ∈ (tree.phrases .ruleSpec).filterMap Rule.ofTree?, r.Nested) ∧
    ((tree.phrases .ruleSpec).filterMap Rule.ofTree?).Pairwise
      fun r s => ∀ x ∈ r.range, ∀ y ∈ s.range, x.stop < y.start := by
  have within := @Tree.tokens_phrases tree .ruleSpec
  have apart := (pairwise_flatMap.mp (laid.sorted.sublist within)).2
  constructor
  · intro r mem
    obtain ⟨spec, isSpec, read⟩ := mem_filterMap.mp mem
    exact (Rule.ofTree?_nested (laid.of_mem isSpec) read).1
  · refine pairwise_filterMap.mpr (apart.imp_of_mem fun {a b} inA inB before r readA s readB => ?_)
    obtain ⟨-, range, isRange, us, inFirst, spans⟩ := Rule.ofTree?_nested (laid.of_mem inA) readA
    obtain ⟨-, range', isRange', vs, inSecond, spans'⟩ := Rule.ofTree?_nested (laid.of_mem inB) readB
    rw [isRange, isRange']
    rintro _ ⟨⟩ _ ⟨⟩
    exact spans.stop_lt_start spans' fun x inUs y inVs => before x (inFirst inUs) y (inSecond inVs)

theorem laid_rules {text : List Char} (faultless : (parse .grammarSpec text).errors = []) {rules : Tree}
    (found : (parse .grammarSpec text).tree.phrase? .rules = some rules) : rules.Laid .rules := by
  obtain ⟨derivation, tokens⟩ := parse_derivation faultless
  have sorted : Lexical.Sorted (parse .grammarSpec text).tree.tokens := tokens ▸ mainTokens_places text
  have mem := mem_of_mem_head? found
  refine ⟨derivation.of_mem_phrases mem, ?_, sorted.sublist (Tree.tokens_phrase? found)⟩
  exact parseTokens_bounded (start_proper text) faultless rules (mem_filter.mp mem).1

/-- In a file without syntax errors the ranges of the rules and their elements are nested, and the
rules lie one behind the other. -/
theorem ranges_nested (file : String) (text : List Char)
    (faultless : (parse .grammarSpec text).errors = []) :
    (∀ r ∈ (ofText file text).rules, r.Nested) ∧
    (ofText file text).rules.Pairwise fun r s => ∀ x ∈ r.range, ∀ y ∈ s.range, x.stop < y.start := by
  rw [ofText, ofTree]
  cases found : (parse .grammarSpec text).tree.phrase? .rules with
  | none => simp
  | some rules => exact rules_nested (laid_rules faultless found)

/-- A rule with two alternatives, a block and an exception handler behind it, and a lexer rule with an
empty alternative. -/
def severalRanges : List Char := "grammar G;\nr\n  : A (B |) c=r # l\n  | ;\ncatch [e] \x7b\x7d\nA : 'a' |;".toList

theorem ranges_nested_severalRanges : (parse .grammarSpec severalRanges).errors = [] ∧
    (ofText "G.g4" severalRanges).rules.map (·.range) = [some ⟨2, 1, 5, 11⟩, some ⟨6, 1, 6, 10⟩] ∧
    ∀ r ∈ (ofText "G.g4" severalRanges).rules, r.Nested := by
  obtain ⟨faultless, ranges⟩ : (parse .grammarSpec severalRanges).errors = [] ∧
      (ofText "G.g4" severalRanges).rules.map (·.range) = [some ⟨2, 1, 5, 11⟩, some ⟨6, 1, 6, 10⟩] := by
    decide +kernel
  exact ⟨faultless, ranges, (ranges_nested "G.g4" severalRanges faultless).1⟩

end Grammar

end GrammarLint
