import GrammarLint.Proofs.Continuation

open List

namespace GrammarLint.Phrase

open Lexical (Kind Token)

section

variable (kinds : List Kind) (foreign : List Category)

/-- Whether a form may consist of tokens of the kinds alone, without phrases of foreign categories. -/
def Form.possible : Form → Bool
  | .empty => true
  | .token _ kind => kinds.contains kind
  | .oneOf _ others => others.any kinds.contains
  | .call _ cat => !foreign.contains cat
  | .seq f g => f.possible && g.possible
  | .alt f g => f.possible || g.possible
  | .choice _ _ f => f.possible
  | .optional _ _ _ => true
  | .star _ _ _ _ _ => true
  | .plus _ _ f => f.possible
  | .rounds _ _ _ _ => true

/-- Two forms behind each other, where an empty one is left out. -/
def Form.join : Form → Form → Form
  | .empty, g => g
  | f, .empty => f
  | f, g => .seq f g

/-- What is left of a form if there are only tokens of the kinds, with all numbers left out. -/
def Form.narrow : Form → Form
  | .empty => .empty
  | .token _ kind => .token 0 kind
  | .oneOf _ others => .oneOf 0 (others.filter kinds.contains)
  | .call _ cat => .call 0 cat
  | .seq f g => f.narrow.join g.narrow
  | .alt f g =>
    if f.possible kinds foreign = false then g.narrow
    else if g.possible kinds foreign = false then f.narrow
    else .alt f.narrow g.narrow
  | .choice _ _ f => f.narrow
  | .optional _ _ f =>
    if f.possible kinds foreign then .optional 0 .one f.narrow else .empty
  | .star _ _ _ _ f =>
    if f.possible kinds foreign then .rounds 0 .one true f.narrow else .empty
  | .plus _ _ f => .plus 0 0 f.narrow
  | .rounds _ _ _ f =>
    if f.possible kinds foreign then .rounds 0 .one true f.narrow else .empty

end

variable {us vs : List Tree}

theorem Fits.join {f g : Form} (first : Fits f us) (second : Fits g vs) : Fits (f.join g) (us ++ vs) := by
  unfold Form.join
  split
  · cases first
    exact second
  · cases second
    rwa [append_nil]
  · exact .seq first second

variable {holds : Token → Prop}

theorem mem_tokensOf_left (within : ∀ token ∈ Tree.tokensOf (us ++ vs), holds token) :
    ∀ token ∈ Tree.tokensOf us, holds token :=
  fun token mem => within token (by rw [Tree.tokensOf_append]; exact mem_append_left _ mem)

theorem mem_tokensOf_right (within : ∀ token ∈ Tree.tokensOf (us ++ vs), holds token) :
    ∀ token ∈ Tree.tokensOf vs, holds token :=
  fun token mem => within token (by rw [Tree.tokensOf_append]; exact mem_append_right _ mem)

/-- Trees whose tokens are all of the kinds fit what is left of a form. -/
theorem Fits.narrow {kinds : List Kind} {foreign : List Category}
    (needed : ∀ cat ∈ foreign, cat.form.possible kinds foreign = false) {form : Form}
    {trees : List Tree} (fits : Fits form trees)
    (within : ∀ token ∈ Tree.tokensOf trees, token.kind ∈ kinds) :
    form.possible kinds foreign = true ∧ Fits (form.narrow kinds foreign) trees := by
  induction fits with
  | empty => exact ⟨rfl, .empty⟩
  | @token _ token =>
    have mem : token.kind ∈ kinds := within token (by simp [Tree.tokensOf, Tree.tokens])
    exact ⟨contains_iff_mem.mpr mem, .token⟩
  | @oneOf others _ token chosen =>
    have mem : token.kind ∈ kinds := within token (by simp [Tree.tokensOf, Tree.tokens])
    exact ⟨any_eq_true.mpr ⟨_, chosen, contains_iff_mem.mpr mem⟩,
      .oneOf (mem_filter.mpr ⟨chosen, contains_iff_mem.mpr mem⟩)⟩
  | @call children _ start stop cat inner ih =>
    have inside : ∀ token ∈ Tree.tokensOf children, token.kind ∈ kinds := by
      simpa [Tree.tokensOf, Tree.tokens] using within
    refine ⟨?_, .call inner⟩
    rw [Form.possible, Bool.not_eq_true', Bool.eq_false_iff]
    intro isForeign
    have impossible := needed cat (contains_iff_mem.mp isForeign)
    rw [(ih inside).1] at impossible
    exact Bool.false_ne_true impossible.symm
  | seq _ _ first second =>
    obtain ⟨possible, narrow⟩ := first (mem_tokensOf_left within)
    obtain ⟨possible', narrow'⟩ := second (mem_tokensOf_right within)
    exact ⟨by simp [Form.possible, possible, possible'], narrow.join narrow'⟩
  | left _ ih =>
    obtain ⟨possible, narrow⟩ := ih within
    refine ⟨by simp [Form.possible, possible], ?_⟩
    rw [Form.narrow, if_neg (by simp [possible])]
    split
    · exact narrow
    · exact .left narrow
  | right _ ih =>
    obtain ⟨possible, narrow⟩ := ih within
    refine ⟨by simp [Form.possible, possible], ?_⟩
    rw [Form.narrow]
    split
    · exact narrow
    · rw [if_neg (by simp [possible])]
      exact .right narrow
  | choice _ ih => exact ih within
  | absent =>
    refine ⟨rfl, ?_⟩
    rw [Form.narrow]
    split
    · exact .absent
    · exact .empty
  | present _ ih =>
    obtain ⟨possible, narrow⟩ := ih within
    refine ⟨rfl, ?_⟩
    rw [Form.narrow, if_pos possible]
    exact .present narrow
  | star _ ih => exact ih within
  | plus _ _ first later =>
    obtain ⟨possible, narrow⟩ := first (mem_tokensOf_left within)
    obtain ⟨-, rounds⟩ := later (mem_tokensOf_right within)
    rw [Form.narrow, if_pos possible] at rounds
    exact ⟨possible, .plus narrow rounds⟩
  | stop =>
    refine ⟨rfl, ?_⟩
    rw [Form.narrow]
    split
    · exact .stop
    · exact .empty
  | round _ _ first later =>
    obtain ⟨possible, narrow⟩ := first (mem_tokensOf_left within)
    obtain ⟨-, rounds⟩ := later (mem_tokensOf_right within)
    rw [Form.narrow, if_pos possible] at rounds ⊢
    exact ⟨rfl, .round narrow rounds⟩

/-- The kinds of tokens in a grammar without actions, options, commands, blocks and sets of tokens. -/
def plainKinds : List Kind := [
  .grammarKeyword, .fragmentKeyword, .tokenRef, .ruleRef, .stringLiteral, .lexerCharSet, .colon,
  .semicolon, .bar, .pound, .question, .star, .plus, .endOfFile]

/-- Categories of which every phrase has another token. -/
def foreign : List Category := [
  .prequelConstruct, .optionsSpec, .delegateGrammars, .tokensSpec, .channelsSpec, .action,
  .argActionBlock, .actionBlock, .modeSpec, .exceptionHandler, .finallyClause, .rulePrequel,
  .ruleReturns, .throwsSpec, .localsSpec, .ruleAction, .lexerBlock, .lexerCommands,
  .predicateOptions, .labeledElement, .ebnf, .block, .wildcard, .notSet, .characterRange,
  .elementOptions]

/-- What is left of the categories in a grammar of these tokens. -/
def Category.plain : Category → Form
  | .grammarSpec => .seq (.call 0 .grammarDecl) (.seq (.call 0 .rules) (.token 0 .endOfFile))
  | .grammarDecl => .seq (.call 0 .grammarType) (.seq (.call 0 .identifier) (.token 0 .semicolon))
  | .grammarType => .token 0 .grammarKeyword
  | .rules => .rounds 0 .one true (.call 0 .ruleSpec)
  | .ruleSpec => .alt (.call 0 .parserRuleSpec) (.call 0 .lexerRuleSpec)
  | .parserRuleSpec =>
    .seq (.optional 0 .one (.call 0 .ruleModifiers)) (.seq (.token 0 .ruleRef) (.seq (.token 0 .colon)
      (.seq (.call 0 .ruleBlock) (.seq (.token 0 .semicolon) (.call 0 .exceptionGroup)))))
  | .exceptionGroup => .empty
  | .ruleModifiers => .plus 0 0 (.call 0 .ruleModifier)
  | .ruleModifier => .oneOf 0 [.fragmentKeyword]
  | .ruleBlock => .call 0 .ruleAltList
  | .ruleAltList =>
    .seq (.call 0 .labeledAlt) (.rounds 0 .one true (.seq (.token 0 .bar) (.call 0 .labeledAlt)))
  | .labeledAlt =>
    .seq (.call 0 .alternative) (.optional 0 .one (.seq (.token 0 .pound) (.call 0 .identifier)))
  | .alternative => .alt (.plus 0 0 (.call 0 .element)) .empty
  | .element => .seq (.call 0 .atom) (.alt (.call 0 .ebnfSuffix) .empty)
  | .atom => .alt (.call 0 .terminalDef) (.call 0 .ruleRef)
  | .terminalDef => .alt (.token 0 .tokenRef) (.token 0 .stringLiteral)
  | .ruleRef => .token 0 .ruleRef
  | .lexerRuleSpec =>
    .seq (.optional 0 .one (.token 0 .fragmentKeyword)) (.seq (.token 0 .tokenRef)
      (.seq (.token 0 .colon) (.seq (.call 0 .lexerRuleBlock) (.token 0 .semicolon))))
  | .lexerRuleBlock => .call 0 .lexerAltList
  | .lexerAltList =>
    .seq (.call 0 .lexerAlt) (.rounds 0 .one true (.seq (.token 0 .bar) (.call 0 .lexerAlt)))
  | .lexerAlt => .alt (.call 0 .lexerElements) .empty
  | .lexerElements => .alt (.plus 0 0 (.call 0 .lexerElement)) .empty
  | .lexerElement => .seq (.call 0 .lexerAtom) (.optional 0 .one (.call 0 .ebnfSuffix))
  | .lexerAtom => .alt (.call 0 .terminalDef) (.token 0 .lexerCharSet)
  | .identifier => .oneOf 0 [.ruleRef, .tokenRef]
  | .ebnfSuffix =>
    let lazy : Form := .optional 0 .one (.token 0 .question)
    .alt (.seq (.token 0 .question) lazy) (.alt (.seq (.token 0 .star) lazy) (.seq (.token 0 .plus) lazy))
  | cat => cat.form.narrow plainKinds foreign

theorem foreign_needed : ∀ cat ∈ foreign, cat.form.possible plainKinds foreign = false := by
  decide

theorem narrow_plain : ∀ cat ∈ Category.all,
    cat.form.narrow plainKinds foreign = cat.plain := by
  decide +kernel

/-- Trees of plain tokens that a form stands for. -/
structure Plain (form : Form) (trees : List Tree) : Prop where
  fits : Fits form trees
  within : ∀ token ∈ Tree.tokensOf trees, token.kind ∈ plainKinds

def Tree.IsPlain (cat : Category) (tree : Tree) : Prop :=
  ∃ start stop children, tree = .phrase cat start stop children ∧ Plain cat.plain children

namespace Plain

variable {cat : Category} {trees : List Tree} {f : Form} {index back : Nat}
  {lookahead : Lookahead} {greedy : Bool}

theorem narrow (plain : Plain cat.form trees) : Plain cat.plain trees := by
  have narrow := (plain.fits.narrow foreign_needed plain.within).2
  rw [narrow_plain cat (mem_all cat)] at narrow
  exact ⟨narrow, plain.within⟩

variable {g : Form} {k l : Nat} {kind : Kind}

theorem seq (plain : Plain (.seq f g) trees) : ∃ us vs, trees = us ++ vs ∧ Plain f us ∧ Plain g vs := by
  obtain ⟨fits, within⟩ := plain
  cases fits with
  | seq first second =>
    exact ⟨_, _, rfl, ⟨first, mem_tokensOf_left within⟩, ⟨second, mem_tokensOf_right within⟩⟩

theorem alt (plain : Plain (.alt f g) trees) : Plain f trees ∨ Plain g trees := by
  obtain ⟨fits, within⟩ := plain
  cases fits with
  | left fits => exact .inl ⟨fits, within⟩
  | right fits => exact .inr ⟨fits, within⟩

theorem optional (plain : Plain (.optional index lookahead f) trees) :
    trees = [] ∨ Plain f trees := by
  obtain ⟨fits, within⟩ := plain
  cases fits with
  | absent => exact .inl rfl
  | present fits => exact .inr ⟨fits, within⟩

theorem empty (plain : Plain .empty trees) : trees = [] := by
  obtain ⟨⟨⟩, -⟩ := plain
  rfl

theorem token (plain : Plain (.token index kind) trees) :
    ∃ token, trees = [.leaf token] ∧ token.kind = kind := by
  obtain ⟨⟨⟩, -⟩ := plain
  exact ⟨_, rfl, rfl⟩

theorem oneOf {kinds : List Kind}
    (plain : Plain (.oneOf index kinds) trees) : ∃ token, trees = [.leaf token] ∧ token.kind ∈ kinds := by
  obtain ⟨⟨⟩, -⟩ := plain
  exact ⟨_, rfl, ‹_›⟩

theorem call
    (plain : Plain (.call index cat) trees) : ∃ tree, trees = [tree] ∧ tree.IsPlain cat := by
  obtain ⟨⟨⟩, within⟩ := plain
  rename_i children start stop fits
  have inside : Plain cat.form children := ⟨fits, by simpa [Tree.tokensOf, Tree.tokens] using within⟩
  exact ⟨_, rfl, start, stop, children, rfl, inside.narrow⟩

theorem rounds (plain : Plain (.rounds back lookahead greedy f) trees) :
    ∃ chunks : List (List Tree), trees = chunks.flatten ∧ ∀ chunk ∈ chunks, Plain f chunk := by
  obtain ⟨fits, within⟩ := plain
  generalize loop : Form.rounds back lookahead greedy f = form at fits
  induction fits with
  | stop => exact ⟨[], rfl, by simp⟩
  | @round _ us _ _ _ vs first _ _ ih =>
    cases loop
    obtain ⟨chunks, rfl, each⟩ := ih (mem_tokensOf_right within) rfl
    refine ⟨us :: chunks, rfl, fun chunk mem => ?_⟩
    rcases mem_cons.mp mem with rfl | later
    · exact ⟨first, mem_tokensOf_left within⟩
    · exact each chunk later
  | _ => cases loop

/-- A loop of calls gives phrases one behind the other. -/
theorem calls (plain : Plain (.rounds back lookahead greedy (.call index cat)) trees) :
    ∀ tree ∈ trees, tree.IsPlain cat := by
  obtain ⟨chunks, rfl, each⟩ := plain.rounds
  intro tree mem
  obtain ⟨chunk, inChunks, inChunk⟩ := mem_flatten.mp mem
  obtain ⟨only, rfl, isPlain⟩ := (each chunk inChunks).call
  exact mem_singleton.mp inChunk ▸ isPlain

theorem plus_calls {place : Nat} (plain : Plain (.plus index back (.call place cat)) trees) :
    ∀ tree ∈ trees, tree.IsPlain cat := by
  obtain ⟨fits, within⟩ := plain
  cases fits with
  | plus first later =>
    intro tree mem
    rcases mem_append.mp mem with inFirst | inLater
    · obtain ⟨only, rfl, isPlain⟩ := (mk first (mem_tokensOf_left within)).call
      exact mem_singleton.mp inFirst ▸ isPlain
    · exact (mk later (mem_tokensOf_right within)).calls tree inLater

theorem pairs {chunks : List (List Tree)}
    (each : ∀ chunk ∈ chunks, Plain (.seq (.token k kind) (.call l cat)) chunk) :
    ∃ pairs : List (Token × Tree), chunks = pairs.map (fun pair => [.leaf pair.1, pair.2]) ∧
      ∀ pair ∈ pairs, pair.1.kind = kind ∧ pair.2.IsPlain cat := by
  induction chunks with
  | nil => exact ⟨[], rfl, by simp⟩
  | cons chunk chunks ih =>
    obtain ⟨_, _, rfl, bar, item⟩ := (each chunk mem_cons_self).seq
    obtain ⟨token, rfl, same⟩ := bar.token
    obtain ⟨tree, rfl, isPlain⟩ := item.call
    obtain ⟨pairs, rfl, others⟩ := ih fun later mem => each later (mem_cons_of_mem _ mem)
    refine ⟨(token, tree) :: pairs, rfl, fun pair mem => ?_⟩
    rcases mem_cons.mp mem with rfl | later
    · exact ⟨same, isPlain⟩
    · exact others pair later

/-- A list with separators: the phrase that is first and the others, each with what stands before it. -/
theorem separated {i j : Nat}
    (plain : Plain (.seq (.call i cat)
      (.rounds j lookahead greedy (.seq (.token k kind) (.call l cat)))) trees) :
    ∃ first, ∃ pairs : List (Token × Tree),
      trees = first :: pairs.flatMap (fun pair => [.leaf pair.1, pair.2]) ∧
      first.IsPlain cat ∧ ∀ pair ∈ pairs, pair.1.kind = kind ∧ pair.2.IsPlain cat := by
  obtain ⟨_, _, rfl, one, loop⟩ := plain.seq
  obtain ⟨first, rfl, isPlain⟩ := one.call
  obtain ⟨chunks, rfl, each⟩ := loop.rounds
  obtain ⟨pairs, rfl, others⟩ := pairs each
  exact ⟨first, pairs, by rfl, isPlain, others⟩

end Plain

end GrammarLint.Phrase
