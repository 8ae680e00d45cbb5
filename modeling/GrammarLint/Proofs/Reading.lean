import GrammarLint.Grammar.OfTree
import GrammarLint.Proofs.Narrowing
import GrammarLint.Proofs.Shapes

open List

namespace GrammarLint

open Lexical Phrase

namespace Phrase.Tree

def lexemes (tree : Tree) : List Lexeme := tree.tokens.map Token.lexeme

@[simp]
theorem lexemes_leaf (token : Token) : (leaf token).lexemes = [token.lexeme] := rfl

theorem flatMap_lexemes (trees : List Tree) :
    trees.flatMap lexemes = (tokensOf trees).map Token.lexeme := by
  induction trees with
  | nil => rfl
  | cons tree trees ih =>
    rw [flatMap_cons, ih, tokensOf, map_append]
    rfl

@[simp]
theorem lexemes_phrase (cat : Category) (start : Token) (stop : Option Token) (children : List Tree) :
    (phrase cat start stop children).lexemes = children.flatMap lexemes :=
  (flatMap_lexemes children).symm

theorem text_eq (tree : Tree) : tree.text = String.ofList (tree.lexemes.flatMap (·.text)) := by
  refine String.toList_inj.mp ?_
  simp [text, lexemes, flatMap_map, Token.lexeme]

end Phrase.Tree

namespace Phrase.Tree.IsPlain

variable {tree : Tree}

/-- A phrase that is one token of the kinds. -/
theorem terminalDef (plain : tree.IsPlain .terminalDef) :
    ∃ l, tree.lexemes = [l] ∧ l.kind ∈ atomKinds := by
  obtain ⟨start, stop, children, rfl, inside⟩ := plain
  rcases inside.alt with inside | inside
  · obtain ⟨token, rfl, kind⟩ := inside.token
    exact ⟨token.lexeme, by simp, by simp [Token.lexeme, kind, atomKinds]⟩
  · obtain ⟨token, rfl, kind⟩ := inside.token
    exact ⟨token.lexeme, by simp, by simp [Token.lexeme, kind, atomKinds]⟩

theorem atom (plain : tree.IsPlain .atom) : ∃ l, tree.lexemes = [l] ∧ l.kind ∈ atomKinds := by
  obtain ⟨start, stop, children, rfl, inside⟩ := plain
  rcases inside.alt with inside | inside
  · obtain ⟨inner, rfl, inner_plain⟩ := inside.call
    simpa using inner_plain.terminalDef
  · obtain ⟨_, rfl, _, _, _, rfl, reference⟩ := inside.call
    obtain ⟨token, rfl, kind⟩ := reference.token
    exact ⟨token.lexeme, by simp, by simp [Token.lexeme, kind, atomKinds]⟩

theorem lexerAtom (plain : tree.IsPlain .lexerAtom) : ∃ l, tree.lexemes = [l] ∧ l.kind ∈ atomKinds := by
  obtain ⟨start, stop, children, rfl, inside⟩ := plain
  rcases inside.alt with inside | inside
  · obtain ⟨inner, rfl, inner_plain⟩ := inside.call
    simpa using inner_plain.terminalDef
  · obtain ⟨token, rfl, kind⟩ := inside.token
    exact ⟨token.lexeme, by simp, by simp [Token.lexeme, kind, atomKinds]⟩

theorem ebnfSuffix (plain : tree.IsPlain .ebnfSuffix) : ∀ l ∈ tree.lexemes, l.kind ∈ suffixKinds := by
  have shape : ∀ {kind : Kind} {trees : List Tree}, kind ∈ suffixKinds →
      Plain (.seq (.token 0 kind) (.optional 0 .one (.token 0 .question))) trees →
      ∀ l ∈ trees.flatMap lexemes, l.kind ∈ suffixKinds := by
    intro kind trees isSuffix plain
    obtain ⟨_, _, rfl, first, second⟩ := plain.seq
    obtain ⟨token, rfl, rfl⟩ := first.token
    rcases second.optional with rfl | second
    · simpa [Token.lexeme] using isSuffix
    · obtain ⟨other, rfl, kind⟩ := second.token
      simpa [Token.lexeme, kind, isSuffix] using by decide
  obtain ⟨start, stop, children, rfl, inside⟩ := plain
  rw [lexemes_phrase]
  rcases inside.alt with inside | inside
  · exact shape (by decide) inside
  · rcases inside.alt with inside | inside
    · exact shape (by decide) inside
    · exact shape (by decide) inside

theorem element {tree : Tree} (plain : tree.IsPlain .element) : IsElement tree.lexemes := by
  obtain ⟨start, stop, children, rfl, inside⟩ := plain
  obtain ⟨_, _, rfl, first, second⟩ := inside.seq
  obtain ⟨atom, rfl, isAtom⟩ := first.call
  obtain ⟨l, spelled, kind⟩ := isAtom.atom
  rcases second.alt with second | second
  · obtain ⟨suffix, rfl, isSuffix⟩ := second.call
    exact ⟨l, suffix.lexemes, by simp [spelled], kind, isSuffix.ebnfSuffix⟩
  · cases second.empty
    exact ⟨l, [], by simp [spelled], kind, by simp⟩

theorem lexerElement (plain : tree.IsPlain .lexerElement) : IsElement tree.lexemes := by
  obtain ⟨start, stop, children, rfl, inside⟩ := plain
  obtain ⟨_, _, rfl, first, second⟩ := inside.seq
  obtain ⟨atom, rfl, isAtom⟩ := first.call
  obtain ⟨l, spelled, kind⟩ := isAtom.lexerAtom
  rcases second.optional with rfl | second
  · exact ⟨l, [], by simp [spelled], kind, by simp⟩
  · obtain ⟨suffix, rfl, isSuffix⟩ := second.call
    exact ⟨l, suffix.lexemes, by simp [spelled], kind, isSuffix.ebnfSuffix⟩

end Phrase.Tree.IsPlain

def Element.unplaced (e : Element) : Element := { e with range := none }

/-- The element that the lexemes of a phrase make. -/
def Element.ofLexemes (lexemes : List Lexeme) : Element :=
  let text := lexemes.flatMap (·.text)
  { text := String.ofList text, range := none, label := none, type := ElementType.ofText text }

theorem Element.ofTree_unplaced (tree : Tree) :
    (Element.ofTree tree).unplaced = Element.ofLexemes tree.lexemes := by
  simp [Element.ofTree, Element.unplaced, Element.ofLexemes, Tree.text_eq]

namespace Phrase.Tree

section Children

variable {outer cat : Category} {start : Token} {stop : Option Token} {rest : List Tree}

@[simp]
theorem phrases_nil : (phrase outer start stop []).phrases cat = [] := rfl

variable {token first : Token} {inner : Category} {last : Option Token} {children : List Tree} {kind : Kind}

@[simp]
theorem phrases_leaf : (phrase outer start stop (.leaf token :: rest)).phrases
    cat = (Tree.phrase outer start stop rest).phrases cat := rfl

@[simp]
theorem phrases_phrase :
    (phrase outer start stop (.phrase inner first last children :: rest)).phrases cat =
      if inner = cat then
        .phrase inner first last children :: (phrase outer start stop rest).phrases cat
      else (Tree.phrase outer start stop rest).phrases cat := by
  by_cases same : inner = cat <;> simp [phrases, Tree.children, category?, same]

@[simp]
theorem tokensOfKind_nil : (phrase outer start stop []).tokensOfKind kind = [] := rfl

@[simp]
theorem tokensOfKind_leaf :
    (phrase outer start stop (.leaf token :: rest)).tokensOfKind kind =
      if token.kind = kind then token :: (phrase outer start stop rest).tokensOfKind kind
      else (phrase outer start stop rest).tokensOfKind kind := by
  by_cases same : token.kind = kind <;> simp [tokensOfKind, children, token?, Option.filter, same]

@[simp]
theorem tokensOfKind_phrase :
    (phrase outer start stop (.phrase inner first last children :: rest)).tokensOfKind kind =
      (phrase outer start stop rest).tokensOfKind kind := rfl

/-- Where all children are phrases of a category, they are its phrases. -/
theorem phrases_eq (each : ∀ tree ∈ rest, tree.IsPlain cat) :
    (phrase outer start stop rest).phrases cat = rest := by
  refine filter_eq_self.mpr fun tree mem => ?_
  obtain ⟨_, _, _, rfl, -⟩ := each tree mem
  simp [category?]

/-- Phrases of a category with tokens between them. -/
theorem phrases_pairs {pairs : List (Token × Tree)} (each : ∀ pair ∈ pairs, pair.2.IsPlain cat) :
    (Tree.phrase outer start stop (pairs.flatMap fun pair => [.leaf pair.1, pair.2])).phrases cat =
      pairs.map (·.2) := by
  induction pairs with
  | nil => rfl
  | cons pair pairs ih =>
    obtain ⟨_, _, _, same, -⟩ := each pair mem_cons_self
    have later := ih fun pair member => each pair (mem_cons_of_mem _ member)
    simp [same, later]

end Children

end Phrase.Tree

namespace Rule

/-- The alternative in a phrase of a parser rule. -/
def parserAlternative (tree : Tree) : Alternative :=
  { elements := match tree.phrase? .alternative with
      | some body => (body.phrases .element).map Element.ofTree
      | none => [],
    label := (tree.phrase? .identifier).map (·.text),
    range := none }

/-- The alternative in a phrase of a lexer rule. -/
def lexerAlternative (tree : Tree) : Alternative :=
  { elements := match tree.phrase? .lexerElements with
      | some body => (body.phrases .lexerElement).map Element.ofTree
      | none => [],
    label := none,
    range := none }

end Rule

namespace Alternative

def unplaced (a : Alternative) : Alternative := { a with elements := a.elements.map Element.unplaced }

/-- The alternative is what element phrases and the token of a label with these lexemes are read as. -/
def ReadFrom (a : Alternative) (lexemes : List Lexeme) : Prop :=
  ∃ body : List Tree, ∃ label : Option (Token × Token),
    a = ⟨body.map Element.ofTree, label.map (·.2.text), none⟩ ∧
    IsAlternative (body.map Tree.lexemes) (label.map fun l => (l.1.lexeme, l.2.lexeme)) lexemes

end Alternative

namespace Phrase.Tree.IsPlain

variable {tree : Tree}

theorem alternative (plain : tree.IsPlain .alternative) :
    tree.lexemes = (tree.phrases .element).flatMap lexemes ∧
      ∀ e ∈ (tree.phrases .element).map lexemes, IsElement e := by
  obtain ⟨start, stop, children, rfl, inside⟩ := plain
  have each : ∀ tree ∈ children, tree.IsPlain .element := by
    rcases inside.alt with some_ | none_
    · exact some_.plus_calls
    · simp [none_.empty]
  rw [phrases_eq each]
  refine ⟨lexemes_phrase .., fun e mem => ?_⟩
  obtain ⟨tree, inside, rfl⟩ := mem_map.mp mem
  exact (each tree inside).element

theorem labeledAlt (plain : tree.IsPlain .labeledAlt) :
    (Rule.parserAlternative tree).ReadFrom tree.lexemes := by
  obtain ⟨start, stop, children, rfl, inside⟩ := plain
  obtain ⟨_, tail, rfl, first, second⟩ := inside.seq
  obtain ⟨inner, rfl, isAlternative⟩ := first.call
  obtain ⟨spelled, elements⟩ := isAlternative.alternative
  obtain ⟨_, _, _, rfl, -⟩ := isAlternative
  rcases second.optional with rfl | second
  · refine ⟨_, none, ?_, ?_, elements, by simp⟩
    · simp [Rule.parserAlternative, phrase?]
    · simpa [flatMap_def] using spelled
  · obtain ⟨_, _, rfl, sign, name⟩ := second.seq
    obtain ⟨pound, rfl, isPound⟩ := sign.token
    obtain ⟨_, rfl, _, _, _, rfl, identifier⟩ := name.call
    obtain ⟨token, rfl, isName⟩ := identifier.oneOf
    refine ⟨_, some (pound, token), ?_, ?_, elements, ?_⟩
    · simp [Rule.parserAlternative, phrase?, text, tokens, tokensOf]
    · simpa [flatMap_def] using spelled
    · rintro _ ⟨⟩
      have isAtom : ∀ kind ∈ [Kind.ruleRef, .tokenRef], kind ∈ atomKinds := by decide
      exact ⟨isPound, isAtom _ isName⟩

theorem lexerAlt (plain : tree.IsPlain .lexerAlt) :
    (Rule.lexerAlternative tree).ReadFrom tree.lexemes := by
  obtain ⟨start, stop, children, rfl, inside⟩ := plain
  rcases inside.alt with some_ | none_
  · obtain ⟨_, rfl, _, _, children, rfl, elements⟩ := some_.call
    have each : ∀ tree ∈ children, tree.IsPlain .lexerElement := by
      rcases elements.alt with loop | nothing
      · exact loop.plus_calls
      · simp [nothing.empty]
    refine ⟨children, none, ?_, ?_, fun e member => ?_, by simp⟩
    · simp [Rule.lexerAlternative, phrase?, phrases_eq each]
    · simp [flatMap_def]
    · obtain ⟨tree, inside, rfl⟩ := mem_map.mp member
      exact (each tree inside).lexerElement
  · cases none_.empty
    exact ⟨[], none, rfl, rfl, by simp, by simp⟩

end Phrase.Tree.IsPlain

/-- The lexemes of a phrase and of others, each with a bar before it. -/
structure Phrase.Listed (cat : Category) (first : Tree) (pairs : List (Token × Tree))
    (lexemes : List Lexeme) : Prop where
  text : lexemes = first.lexemes ++ (pairs.map fun pair => pair.1.lexeme :: pair.2.lexemes).flatten
  first_plain : first.IsPlain cat
  pairs_plain : ∀ pair ∈ pairs, pair.1.kind = .bar ∧ pair.2.IsPlain cat

variable {cat : Category} {first : Tree} {pairs : List (Token × Tree)} {reader : Tree → Alternative}
  {lexemes : List Lexeme}

theorem Phrase.Plain.listed {children : List Tree} {i j k l : Nat} {lookahead : Lookahead}
    {greedy : Bool}
    (plain : Plain (.seq (.call i cat)
      (.rounds j lookahead greedy (.seq (.token k .bar) (.call l cat)))) children) :
    ∃ first pairs, Listed cat first pairs (children.flatMap Tree.lexemes) ∧ ∀ outer start stop,
      (Tree.phrase outer start stop children).phrases cat = first :: pairs.map (·.2) := by
  obtain ⟨first, pairs, rfl, firstPlain, pairsPlain⟩ := plain.separated
  refine ⟨first, pairs, ⟨?_, firstPlain, pairsPlain⟩, fun outer start stop => ?_⟩
  · rw [flatMap_cons, flatMap_assoc, ← flatMap_def]
    simp
  · obtain ⟨_, _, _, rfl, -⟩ := firstPlain
    rw [Tree.phrases_phrase, if_pos rfl,
      Tree.phrases_pairs fun pair member => (pairsPlain pair member).2]

namespace Rule

def unplaced (r : Rule) : Rule :=
  { r with range := none, alternatives := r.alternatives.map Alternative.unplaced }

theorem ofParserTree_unplaced {tree list : Tree} {name : Token}
    (named : (tree.tokensOfKind .ruleRef).head? = some name)
    (blocked : (tree.phrase? .ruleBlock).bind (·.phrase? .ruleAltList) = some list) :
    (ofParserTree tree).unplaced = ⟨name.text, false, false, none, none,
      (list.phrases .labeledAlt).map fun alt => (parserAlternative alt).unplaced⟩ := by
  simp only [ofParserTree, unplaced, nameIn, named, parserAlternatives, blocked, map_map]
  rfl

theorem ofLexerTree_unplaced {tree list : Tree} {name : Token}
    (named : (tree.tokensOfKind .tokenRef).head? = some name)
    (blocked : (tree.phrase? .lexerRuleBlock).bind (·.phrase? .lexerAltList) = some list) :
    (ofLexerTree tree).unplaced = ⟨name.text, true, !(tree.tokensOfKind .fragmentKeyword).isEmpty,
      none, none, (list.phrases .lexerAlt).map fun alt => (lexerAlternative alt).unplaced⟩ := by
  simp only [ofLexerTree, unplaced, nameIn, named, lexerAlternatives, blocked, map_map]
  rfl

/-- The rule is what a phrase with these lexemes is read as. -/
def ReadFrom (r : Rule) (lexemes : List Lexeme) : Prop :=
  ∃ (modifiers : List Lexeme) (name : Token) (reader : Tree → Alternative) (first : Tree)
    (pairs : List (Token × Tree)),
    IsRule modifiers name.lexeme first.lexemes
      (pairs.map fun pair => pair.1.lexeme :: pair.2.lexemes) lexemes ∧
    (∀ tree ∈ first :: pairs.map (·.2), (reader tree).ReadFrom tree.lexemes) ∧
    r.unplaced = ⟨name.text, name.kind == .tokenRef, name.kind == .tokenRef && !modifiers.isEmpty,
      none, none, (first :: pairs.map (·.2)).map fun tree => (reader tree).unplaced⟩

end Rule

namespace Phrase.Tree.IsPlain

variable {tree : Tree}

/-- The alternatives in the block of a rule. -/
theorem ruleBody {outer list item : Category} (one : outer.plain = .call 0 list)
    (several : list.plain =
      .seq (.call 0 item) (.rounds 0 .one true (.seq (.token 0 .bar) (.call 0 item))))
    (plain : tree.IsPlain outer) :
    ∃ first pairs inner, Listed item first pairs tree.lexemes ∧
      tree.phrase? list = some inner ∧ inner.phrases item = first :: pairs.map (·.2) := by
  obtain ⟨_, _, _, rfl, inside⟩ := plain
  rw [one] at inside
  obtain ⟨_, rfl, start, stop, _, rfl, inner⟩ := inside.call
  rw [several] at inner
  obtain ⟨first, pairs, listed, found⟩ := inner.listed
  exact ⟨first, pairs, _, by simpa using listed, by simp [phrase?], found list start stop⟩

theorem ruleModifiers (plain : tree.IsPlain .ruleModifiers) :
    ∀ l ∈ tree.lexemes, l.kind = .fragmentKeyword := by
  obtain ⟨_, _, children, rfl, inside⟩ := plain
  intro l mem
  rw [lexemes_phrase] at mem
  obtain ⟨modifier, among, spelled⟩ := mem_flatMap.mp mem
  obtain ⟨_, _, _, rfl, one⟩ := inside.plus_calls modifier among
  obtain ⟨token, rfl, kind⟩ := one.oneOf
  simp only [lexemes_phrase, flatMap_cons, lexemes_leaf, flatMap_nil, append_nil,
    mem_singleton] at spelled kind
  rw [spelled]
  exact kind

end Phrase.Tree.IsPlain

/-- The alternatives in a list are read from their lexemes. -/
theorem Phrase.Listed.reads (listed : Listed cat first pairs lexemes)
    (reads : ∀ {tree : Tree}, tree.IsPlain cat → (reader tree).ReadFrom tree.lexemes) :
    ∀ tree ∈ first :: pairs.map (·.2), (reader tree).ReadFrom tree.lexemes := by
  intro tree mem
  rcases mem_cons.mp mem with rfl | later
  · exact reads listed.first_plain
  · obtain ⟨pair, inPairs, rfl⟩ := mem_map.mp later
    exact reads (listed.pairs_plain pair inPairs).2

theorem Alternative.ReadFrom.kind_mem {a : Alternative}
    (reads : a.ReadFrom lexemes) : ∀ l ∈ lexemes, l.kind ∈ alternativeKinds := by
  obtain ⟨_, _, -, shape⟩ := reads
  exact shape.kind_mem

/-- A rule is what stands around a list of alternatives. -/
theorem Phrase.Listed.isRule (listed : Listed cat first pairs lexemes)
    (reads : ∀ {tree : Tree}, tree.IsPlain cat → (reader tree).ReadFrom tree.lexemes)
    {modifiers : List Lexeme} {name colon semicolon : Token}
    (modifier : ∀ m ∈ modifiers, m.kind = .fragmentKeyword)
    (named : name.kind = .ruleRef ∨ name.kind = .tokenRef) (isColon : colon.kind = .colon)
    (isSemicolon : semicolon.kind = .semicolon) :
    IsRule modifiers name.lexeme first.lexemes
      (pairs.map fun pair => pair.1.lexeme :: pair.2.lexemes)
      (modifiers ++ name.lexeme :: colon.lexeme :: (lexemes ++ [semicolon.lexeme])) := by
  refine ⟨⟨colon.lexeme, semicolon.lexeme, isColon, isSemicolon, by rw [listed.text]⟩, modifier, named,
    (reads listed.first_plain).kind_mem, fun o mem => ?_⟩
  obtain ⟨pair, inPairs, rfl⟩ := mem_map.mp mem
  obtain ⟨isBar, isPlain⟩ := listed.pairs_plain pair inPairs
  exact ⟨_, _, rfl, isBar, (reads isPlain).kind_mem⟩

namespace Phrase.Tree.IsPlain

variable {tree : Tree}

theorem parserRuleSpec (plain : tree.IsPlain .parserRuleSpec) :
    (Rule.ofParserTree tree).ReadFrom tree.lexemes := by
  obtain ⟨start, stop, _, rfl, inside⟩ := plain
  obtain ⟨modifiers, _, rfl, modifier, inside⟩ := inside.seq
  obtain ⟨_, _, rfl, named, inside⟩ := inside.seq
  obtain ⟨_, _, rfl, separator, inside⟩ := inside.seq
  obtain ⟨_, _, rfl, body, inside⟩ := inside.seq
  obtain ⟨_, _, rfl, finish, handlers⟩ := inside.seq
  obtain ⟨name, rfl, isName⟩ := named.token
  obtain ⟨colon, rfl, isColon⟩ := separator.token
  obtain ⟨semicolon, rfl, isSemicolon⟩ := finish.token
  obtain ⟨_, rfl, _, _, _, rfl, none_⟩ := handlers.call
  obtain ⟨block, rfl, isBlock⟩ := body.call
  obtain ⟨first, pairs, list, listed, found, alternatives⟩ := ruleBody rfl rfl isBlock
  obtain ⟨_, _, _, rfl, -⟩ := isBlock
  cases none_.empty
  refine ⟨modifiers.flatMap lexemes, name, Rule.parserAlternative, first, pairs, ?_,
    listed.reads labeledAlt, ?_⟩
  · have modifierKinds : ∀ m ∈ modifiers.flatMap lexemes, m.kind = .fragmentKeyword := by
      rcases modifier.optional with rfl | modifier
      · simp
      · obtain ⟨only, rfl, isModifiers⟩ := modifier.call
        simpa using isModifiers.ruleModifiers
    simpa using listed.isRule labeledAlt modifierKinds (.inl isName) isColon isSemicolon
  · rw [Rule.ofParserTree_unplaced, alternatives, isName]
    · rfl
    · rcases modifier.optional with rfl | modifier
      · simp [isName]
      · obtain ⟨_, rfl, _, _, _, rfl, -⟩ := modifier.call
        simp [isName]
    · rcases modifier.optional with rfl | modifier
      · simpa [phrase?] using found
      · obtain ⟨_, rfl, _, _, _, rfl, -⟩ := modifier.call
        simpa [phrase?] using found

theorem lexerRuleSpec (plain : tree.IsPlain .lexerRuleSpec) :
    (Rule.ofLexerTree tree).ReadFrom tree.lexemes := by
  obtain ⟨start, stop, _, rfl, inside⟩ := plain
  obtain ⟨modifiers, _, rfl, modifier, inside⟩ := inside.seq
  obtain ⟨_, _, rfl, named, inside⟩ := inside.seq
  obtain ⟨_, _, rfl, separator, inside⟩ := inside.seq
  obtain ⟨_, _, rfl, body, finish⟩ := inside.seq
  obtain ⟨name, rfl, isName⟩ := named.token
  obtain ⟨colon, rfl, isColon⟩ := separator.token
  obtain ⟨semicolon, rfl, isSemicolon⟩ := finish.token
  obtain ⟨block, rfl, isBlock⟩ := body.call
  obtain ⟨first, pairs, list, listed, found, alternatives⟩ := ruleBody rfl rfl isBlock
  obtain ⟨_, _, _, rfl, -⟩ := isBlock
  refine ⟨modifiers.flatMap lexemes, name, Rule.lexerAlternative, first, pairs, ?_,
    listed.reads lexerAlt, ?_⟩
  · have modifierKinds : ∀ m ∈ modifiers.flatMap lexemes, m.kind = .fragmentKeyword := by
      rcases modifier.optional with rfl | modifier
      · simp
      · obtain ⟨keyword, rfl, isFragment⟩ := modifier.token
        simpa [Token.lexeme] using isFragment
    simpa using listed.isRule lexerAlt modifierKinds (.inr isName) isColon isSemicolon
  · rcases modifier.optional with rfl | modifier
    · rw [@Rule.ofLexerTree_unplaced _ list name (by simp [isName]) (by simpa [phrase?] using found),
        alternatives]
      simp [isName, isColon, isSemicolon]
    · obtain ⟨keyword, rfl, isFragment⟩ := modifier.token
      rw [@Rule.ofLexerTree_unplaced _ list name (by simp [isName, isFragment])
        (by simpa [phrase?] using found), alternatives, isName]
      simp [isFragment]

theorem ruleSpec {tree : Tree} (plain : tree.IsPlain .ruleSpec) :
    ∃ rule, Rule.ofTree? tree = some rule ∧ rule.ReadFrom tree.lexemes := by
  obtain ⟨start, stop, _, rfl, inside⟩ := plain
  rcases inside.alt with inside | inside
  · obtain ⟨spec, rfl, isSpec⟩ := inside.call
    refine ⟨.ofParserTree spec, ?_, by simpa using isSpec.parserRuleSpec⟩
    obtain ⟨_, _, _, rfl, -⟩ := isSpec
    simp [Rule.ofTree?, phrase?]
  · obtain ⟨spec, rfl, isSpec⟩ := inside.call
    refine ⟨.ofLexerTree spec, ?_, by simpa using isSpec.lexerRuleSpec⟩
    obtain ⟨_, _, _, rfl, -⟩ := isSpec
    simp [Rule.ofTree?, phrase?]

end Phrase.Tree.IsPlain

def Grammar.unplaced (g : Grammar) : Grammar := { g with rules := g.rules.map Rule.unplaced }

end GrammarLint
