import GrammarLint.Proofs.Acceptance
import GrammarLint.Proofs.Reading
import GrammarLint.Proofs.Writing

open List

namespace GrammarLint.Source

open Lexical Phrase

/-- What an element is read as: a literal always counts as such, all else only without a suffix, and a
reference only without an underscore. -/
def Element.type {inLexer : Bool} (e : Element inLexer) : ElementType :=
  match e.atom, e.suffix with
  | .literal _, _ => .terminal
  | .set _, none => .charSet
  | .ref name, none =>
    if '_' ∈ name.text then .unknown else if name.isToken then .tokenRef else .ruleRef
  | _, some _ => .unknown

def Element.read {inLexer : Bool} (e : Element inLexer) : GrammarLint.Element :=
  { text := String.ofList e.word.text, range := none, label := none, type := e.type }

def Alternative.read {inLexer : Bool} (a : Alternative inLexer) : GrammarLint.Alternative :=
  { elements := a.elements.map Element.read,
    label := a.label.map fun label => String.ofList label.text,
    range := none }

def Rule.read (r : Rule) : GrammarLint.Rule :=
  { name := String.ofList r.name.text, isLexer := r.name.isToken, isFragment := r.isFragment,
    mode := none, range := none, alternatives := (r.first :: r.others).map Alternative.read }

/-- The grammar that its text should be read as. -/
def Grammar.read (file : String) (g : Grammar) : GrammarLint.Grammar :=
  { file := file, kind := .combined, name := String.ofList g.name.text, range := some ⟨1, 1, 1, 1⟩,
    rules := g.rules.map Rule.read }

/-- A text that starts with a letter is a reference or unknown. -/
theorem ofText_letter {c : Char} (letter : c ∈ letters) (rest : List Char) :
    ElementType.ofText (c :: rest) =
      if Text.allLettersOrNumbers (c :: rest) then
        if 'A' ≤ c && c ≤ 'Z' then .tokenRef else .ruleRef
      else .unknown := by
  have noMark : ∀ c ∈ letters, (c == '\'' || c == '"') = false ∧ (c == '[') = false ∧
      c ∉ suffixChars := by
    decide
  obtain ⟨noQuote, noBracket, noSuffix⟩ := noMark c letter
  obtain ⟨upper, lower⟩ := letters_cased c letter
  have unlike : ∀ d ∈ suffixChars, (c :: rest == [d]) = false := by
    intro d mem
    simp only [beq_eq_false_iff_ne, ne_eq, cons.injEq, not_and]
    rintro rfl
    exact absurd mem noSuffix
  simp only [ElementType.ofText, noQuote, noBracket, upper, lower, unlike '?' (by decide),
    unlike '*' (by decide), unlike '+' (by decide)]
  cases Text.allLettersOrNumbers (c :: rest) <;> cases ('A' ≤ c && c ≤ 'Z') <;> rfl

theorem letters_or_numbers : (∀ c ∈ nameChars, Text.isLetterOrNumber c = (c != '_')) ∧
    ∀ d ∈ suffixChars, Text.isLetterOrNumber d = false := by
  decide +kernel

theorem Name.allLettersOrNumbers (name : Name) :
    Text.allLettersOrNumbers name.text = decide ('_' ∉ name.text) := by
  obtain ⟨d, rest, text, letter, others⟩ := name.isWord
  have known : ∀ c ∈ d :: rest, c ∈ nameChars := forall_mem_cons.mpr ⟨mem_append_left _ letter, others⟩
  rw [Text.allLettersOrNumbers, text, isEmpty_cons, Bool.not_false, Bool.true_and, Bool.eq_iff_iff,
    decide_eq_true_eq, all_eq_true]
  constructor
  · intro all inside
    simpa [letters_or_numbers.1 '_' (by decide)] using all '_' inside
  · intro free c mem
    rw [letters_or_numbers.1 c (known c mem), bne_iff_ne]
    rintro rfl
    exact free mem

theorem suffix_text (suffix : Suffix) : ∃ c ∈ suffixChars, suffix.lexeme.text = [c] := by
  cases suffix
  · exact ⟨'?', by decide, rfl⟩
  · exact ⟨'*', by decide, rfl⟩
  · exact ⟨'+', by decide, rfl⟩

variable {inLexer : Bool} {suffix : Option Suffix} (e : Element inLexer) (r : Rule)

theorem Element.type_ref {name : Name} (fits : (Atom.ref name).fits inLexer = true) :
    ElementType.ofText (Element.word ⟨.ref name, suffix, fits⟩).text =
      Element.type ⟨.ref name, suffix, fits⟩ := by
  obtain ⟨c, rest, text, letter, -⟩ := name.isWord
  have all := name.allLettersOrNumbers
  have isToken : name.isToken = ('A' ≤ c && c ≤ 'Z') := by simp [Name.isToken, text]
  cases suffix with
  | none =>
    have spelled : (Element.word ⟨.ref name, none, fits⟩).text = c :: rest := by
      simp [Element.word, Word.text, Word.lexemes, Atom.lexeme, Name.lexeme, text]
    rw [spelled, ofText_letter letter, ← text, all, ← isToken]
    by_cases inside : '_' ∈ name.text <;> simp [Element.type, inside]
  | some suffix =>
    obtain ⟨d, isSuffix, suffixText⟩ := suffix_text suffix
    have spelled : (Element.word ⟨.ref name, some suffix, fits⟩).text = c :: (rest ++ [d]) := by
      simp [Element.word, Word.text, Word.lexemes, Atom.lexeme, Name.lexeme, text, suffixText]
    rw [spelled, ofText_letter letter, Element.type]
    simp [Text.allLettersOrNumbers, letters_or_numbers.2 d isSuffix]

theorem Element.type_set {set : CharSet} (fits : (Atom.set set).fits inLexer = true) :
    ElementType.ofText (Element.word ⟨.set set, suffix, fits⟩).text =
      Element.type ⟨.set set, suffix, fits⟩ := by
  cases suffix with
  | none =>
    have spelled : (Element.word ⟨.set set, none, fits⟩).text = '[' :: (set.body ++ [']']) := by
      simp [Element.word, Word.text, Word.lexemes, Atom.lexeme]
    have last : ('[' :: (set.body ++ [']'])).getLast? = some ']' := by
      rw [← cons_append, getLast?_concat]
    rw [spelled, ElementType.ofText, last]
    rfl
  | some suffix =>
    obtain ⟨d, isSuffix, suffixText⟩ := suffix_text suffix
    have spelled : (Element.word ⟨.set set, some suffix, fits⟩).text =
        '[' :: (set.body ++ [']', d]) := by
      simp [Element.word, Word.text, Word.lexemes, Atom.lexeme, suffixText]
    have last : ('[' :: (set.body ++ [']', d])).getLast? = some d := by
      rw [show '[' :: (set.body ++ [']', d]) = '[' :: (set.body ++ [']']) ++ [d] by simp,
        getLast?_concat]
    have other : ∀ d ∈ suffixChars, (some d == some ']') = false := by decide
    have uncased : Text.isUpper '[' = false ∧ Text.isLower '[' = false := by decide
    rw [spelled, ElementType.ofText, last, other d isSuffix]
    rfl

theorem Element.type_eq : ElementType.ofText e.word.text = e.type := by
  obtain ⟨atom, suffix, fits⟩ := e
  cases atom with
  | ref name => exact Element.type_ref fits
  | literal l =>
    simp [Element.word, Word.text, Word.lexemes, Atom.lexeme, ElementType.ofText, Element.type]
  | set s => exact Element.type_set fits

theorem Element.read_eq :
    GrammarLint.Element.ofLexemes e.word.lexemes = e.read := by
  rw [Element.read, ← e.type_eq]
  rfl

theorem Atom.kind_mem (atom : Atom) : atom.lexeme.kind ∈ atomKinds := by
  cases atom with
  | ref name =>
    simp only [Atom.lexeme, Name.lexeme]
    split <;> decide
  | literal l => simp [Atom.lexeme, atomKinds]
  | set s => simp [Atom.lexeme, atomKinds]

theorem suffix_kind_mem (suffix : Suffix) : suffix.lexeme.kind ∈ suffixKinds := by
  cases suffix <;> decide

theorem Element.isElement : IsElement e.word.lexemes := by
  refine ⟨_, _, rfl, e.atom.kind_mem, fun l mem => ?_⟩
  obtain ⟨suffix, -, rfl⟩ := Option.map_eq_some_iff.mp (Option.mem_toList.mp mem)
  exact suffix_kind_mem suffix

theorem Alternative.isAlternative (a : Alternative inLexer) :
    IsAlternative (a.elements.map fun e => e.word.lexemes)
      (a.label.map fun label => (⟨.pound, ['#']⟩, label.lexeme)) (lexemesOf a.words) := by
  refine ⟨?_, fun c mem => ?_, fun l isLabel => ?_⟩
  · rw [Alternative.words, lexemesOf_append]
    congr 1
    · simp [lexemesOf, flatMap_def, Function.comp_def]
    · cases a.label <;> rfl
  · obtain ⟨e, -, rfl⟩ := mem_map.mp mem
    exact e.isElement
  · obtain ⟨name, -, rfl⟩ := Option.map_eq_some_iff.mp isLabel
    exact ⟨rfl, (Atom.ref name).kind_mem⟩

theorem Rule.isRule :
    IsRule (if r.isFragment then [⟨.fragmentKeyword, "fragment".toList⟩] else []) r.name.lexeme
      (lexemesOf r.first.words) (r.others.map fun a => ⟨.bar, ['|']⟩ :: lexemesOf a.words)
      (lexemesOf r.words) := by
  refine ⟨⟨⟨.colon, [':']⟩, ⟨.semicolon, [';']⟩, rfl, rfl, ?_⟩, fun m mem => ?_, ?_,
    r.first.isAlternative.kind_mem, fun o mem => ?_⟩
  · have bars : lexemesOf (r.others.flatMap fun a => fixed .bar "|" :: a.words) =
        (r.others.map fun a => ⟨.bar, ['|']⟩ :: lexemesOf a.words).flatten := by
      simp only [lexemesOf, flatMap_assoc, flatMap_cons, ← flatMap_def]
      rfl
    rw [Rule.words, lexemesOf_append, lexemesOf_cons, lexemesOf_cons, lexemesOf_append, Rule.body,
      lexemesOf_append, bars]
    split <;> rfl
  · split at mem
    · rw [mem_singleton.mp mem]
    · simp at mem
  · unfold Name.lexeme
    split
    · exact .inr rfl
    · exact .inl rfl
  · obtain ⟨a, -, rfl⟩ := mem_map.mp mem
    exact ⟨_, _, rfl, rfl, a.isAlternative.kind_mem⟩

/-- What is read from the lexemes of an alternative is the alternative. -/
theorem Alternative.read_eq {a : Alternative inLexer} {found : GrammarLint.Alternative}
    (shape : found.ReadFrom (lexemesOf a.words)) : found.unplaced = a.read := by
  obtain ⟨body, label, rfl, shape⟩ := shape
  obtain ⟨sameElements, sameLabel⟩ := shape.unique a.isAlternative
  have elements : (body.map GrammarLint.Element.ofTree).map GrammarLint.Element.unplaced =
      a.elements.map Element.read := by
    rw [map_map]
    refine map_eq_map_of sameElements fun tree _ e _ spelled => ?_
    rw [Function.comp_apply, Element.ofTree_unplaced, spelled, e.read_eq]
  have labels : label.map (·.2.text) = a.label.map fun label => String.ofList label.text := by
    have texts := congrArg (Option.map fun l : Lexeme × Lexeme => String.ofList l.2.text) sameLabel
    simpa [Function.comp_def, Token.lexeme, Name.lexeme] using texts
  rw [GrammarLint.Alternative.unplaced, elements, labels]
  rfl

/-- What is read from the lexemes of a rule is the rule. -/
theorem Rule.read_eq {r : Rule} {found : GrammarLint.Rule} (reads : found.ReadFrom (lexemesOf r.words)) :
    found.unplaced = r.read := by
  obtain ⟨modifiers, name, reader, first, pairs, shape, alternatives, same⟩ := reads
  obtain ⟨sameModifiers, sameName, sameFirst, sameOthers⟩ := shape.unique r.isRule
  have text : name.text = String.ofList r.name.text := by
    rw [← String.ofList_toList (s := name.text)]
    exact congrArg (fun l : Lexeme => String.ofList l.text) sameName
  have isLexer : (name.kind == .tokenRef) = r.name.isToken := by
    have kind : name.kind = r.name.lexeme.kind := congrArg Lexeme.kind sameName
    rw [kind, Name.lexeme]
    cases r.name.isToken <;> rfl
  have isFragment : (r.name.isToken && !modifiers.isEmpty) = r.isFragment := by
    rw [sameModifiers]
    cases fragment : r.isFragment with
    | false => simp
    | true => simp [r.fragment fragment]
  have others : (pairs.map (·.2)).map (fun tree => (reader tree).unplaced) =
      r.others.map Alternative.read := by
    rw [map_map]
    refine map_eq_map_of sameOthers fun pair mem a _ spelled => ?_
    refine Alternative.read_eq ?_
    rw [← (cons.inj spelled).2]
    exact alternatives _ (mem_cons_of_mem _ (mem_map_of_mem mem))
  have firstRead : (reader first).unplaced = r.first.read := by
    refine Alternative.read_eq ?_
    rw [← sameFirst]
    exact alternatives first mem_cons_self
  rw [same, text, isLexer, isFragment, map_cons, others, firstRead]
  rfl

/-- Rule phrases with the lexemes of some rules are read as these. -/
theorem rules_read {trees : List Tree} {rules : List Rule}
    (plain : ∀ tree ∈ trees, tree.IsPlain .ruleSpec)
    (same : trees.flatMap Tree.lexemes = lexemesOf (rules.flatMap Rule.words)) :
    (trees.filterMap GrammarLint.Rule.ofTree?).map GrammarLint.Rule.unplaced = rules.map Rule.read := by
  have cut : trees.map Tree.lexemes = rules.map fun r => lexemesOf r.words := by
    refine ends_unique (fun l : Lexeme => l.kind == .semicolon) (fun c mem => ?_)
      (fun d mem => ?_) ?_
    · obtain ⟨tree, inside, rfl⟩ := mem_map.mp mem
      obtain ⟨rule, -, _, _, _, _, _, shape, -⟩ := (plain tree inside).ruleSpec
      exact shape.ends
    · obtain ⟨r, -, rfl⟩ := mem_map.mp mem
      exact r.isRule.ends
    · rw [← flatMap_def, same, lexemesOf, flatMap_assoc]
      rfl
  have each : trees.map (fun tree => (GrammarLint.Rule.ofTree? tree).map GrammarLint.Rule.unplaced) =
      rules.map fun r => some r.read := by
    refine map_eq_map_of cut fun tree inside r _ spelled => ?_
    obtain ⟨rule, found, reads⟩ := (plain tree inside).ruleSpec
    rw [found, Option.map_some, Rule.read_eq (spelled ▸ reads)]
  calc (trees.filterMap GrammarLint.Rule.ofTree?).map GrammarLint.Rule.unplaced
      = (trees.map fun tree =>
          (GrammarLint.Rule.ofTree? tree).map GrammarLint.Rule.unplaced).filterMap id := by
        rw [map_filterMap, filterMap_map]
        rfl
    _ = (rules.map fun r => some r.read).filterMap id := by rw [each]
    _ = rules.map Rule.read := by
        rw [filterMap_map]
        exact congrFun filterMap_eq_map rules

/-- A tree with the lexemes of a grammar is read as the grammar. -/
theorem Grammar.read_eq {g : Grammar} {children : List Tree} {finish : Lexeme}
    (plain : Plain Category.grammarSpec.plain children)
    (same : children.flatMap Tree.lexemes = lexemesOf g.words ++ [finish]) (file : String)
    (start : Token) (stop : Option Token) :
    (Grammar.ofTree file (.phrase .grammarSpec start stop children)).unplaced = g.read file := by
  obtain ⟨_, _, rfl, first, inside⟩ := plain.seq
  obtain ⟨_, _, rfl, second, ending⟩ := inside.seq
  obtain ⟨_, rfl, _, _, _, rfl, declaration⟩ := first.call
  obtain ⟨_, _, rfl, words, declared⟩ := declaration.seq
  obtain ⟨_, _, rfl, named, separator⟩ := declared.seq
  obtain ⟨_, rfl, _, _, _, rfl, kind⟩ := words.call
  obtain ⟨_, rfl, _, _, _, rfl, identifier⟩ := named.call
  obtain ⟨keyword, rfl, -⟩ := kind.token
  obtain ⟨name, rfl, -⟩ := identifier.oneOf
  obtain ⟨semicolon, rfl, -⟩ := separator.token
  obtain ⟨_, rfl, _, _, trees, rfl, rules⟩ := second.call
  obtain ⟨last, rfl, -⟩ := ending.token
  have cut : keyword.lexeme :: name.lexeme :: semicolon.lexeme ::
      (trees.flatMap Tree.lexemes ++ [last.lexeme]) = lexemesOf g.words ++ [finish] := by
    simpa using same
  obtain ⟨sameKeyword, cut⟩ := cons.inj cut
  obtain ⟨sameName, cut⟩ := cons.inj cut
  obtain ⟨-, cut⟩ := cons.inj cut
  have kind : GrammarKind.ofText keyword.lexeme.text = .combined := by
    rw [sameKeyword]
    rfl
  have text : name.lexeme.text = g.name.text := congrArg Lexeme.text sameName
  have rulesRead := rules_read rules.calls (append_inj' cut rfl).1
  simp [Grammar.ofTree, Grammar.unplaced, Grammar.read, Tree.phrase?, Tree.phrases_eq rules.calls,
    Tree.text_eq, kind, text, rulesRead]

theorem Rule.kind_mem : ∀ l ∈ lexemesOf r.words, l.kind ∈ plainKinds := by
  have plain : ∀ kind ∈ Kind.fragmentKeyword :: .colon :: .bar :: alternativeKinds,
      kind ∈ plainKinds := by
    decide
  obtain ⟨front, semicolon, text, isSemicolon, kinds⟩ := r.isRule.split
  intro l mem
  rw [text] at mem
  rcases mem_append.mp mem with inFront | last
  · exact plain _ (kinds l inFront)
  · rw [mem_singleton.mp last, isSemicolon]
    decide

theorem Grammar.kind_mem (g : Grammar) : ∀ l ∈ lexemesOf g.words, l.kind ∈ plainKinds := by
  have isName : ∀ kind ∈ atomKinds, kind ∈ plainKinds := by decide
  intro l mem
  rcases mem_cons.mp mem with rfl | mem
  · decide
  rcases mem_cons.mp mem with rfl | mem
  · exact isName _ (Atom.ref g.name).kind_mem
  rcases mem_cons.mp mem with rfl | mem
  · decide
  change l ∈ lexemesOf (g.rules.flatMap Rule.words) at mem
  rw [lexemesOf, flatMap_assoc] at mem
  obtain ⟨r, -, inside⟩ := mem_flatMap.mp mem
  exact r.kind_mem l inside

/-- A grammar that is written out can be read again, however it is laid out: there is no error, and
what is read is a combined grammar with the name, the rules, the alternatives, the elements and the
labels that were written. -/
theorem ofText_write (layout : Layout) (g : Grammar) (file : String) :
    (scan (g.write layout)).errors = [] ∧ (parse .grammarSpec (g.write layout)).errors = [] ∧
      (Grammar.ofText file (g.write layout)).unplaced = g.read file := by
  obtain ⟨scanned, tokens⟩ := layout.scan_write (List.cons_ne_nil _ _) g.legible
  have lexemes : (mainTokens (g.write layout)).map Token.lexeme = lexemesOf g.words := tokens
  have kinds : (mainTokens (g.write layout)).map (·.kind) = kindsOf g.words := by
    rw [kindsOf, ← lexemes, List.map_map]
    rfl
  have parsed : (parse .grammarSpec (g.write layout)).errors = [] := by
    refine parseTokens_of_derives (start_proper _) ?_
    rw [show (scan (g.write layout)).tokens.filter (·.channel == .main) = mainTokens (g.write layout)
      from rfl, kinds]
    exact g.derives
  refine ⟨scanned, parsed, ?_⟩
  obtain ⟨children, stop, tree, fits, leaves⟩ := parseTokens_unfailed (start_proper _) parsed
  have within : ∀ token ∈ Tree.tokensOf children, token.kind ∈ plainKinds := by
    intro token member
    rw [leaves] at member
    rcases List.mem_append.mp member with inside | last
    · exact g.kind_mem _ (lexemes ▸ List.mem_map_of_mem inside)
    · rw [List.mem_singleton.mp last]
      simp [Token.endOfFile, plainKinds]
  have spelled : children.flatMap Tree.lexemes =
      lexemesOf g.words ++ [(Token.endOfFile (scan (g.write layout)).finish).lexeme] := by
    rw [Tree.flatMap_lexemes, leaves, List.map_append, lexemes]
    rfl
  rw [Grammar.ofText, parse]
  rw [show (scan (g.write layout)).tokens.filter (·.channel == .main) = mainTokens (g.write layout)
      from rfl, tree]
  exact Grammar.read_eq (Plain.narrow ⟨fits, within⟩) spelled file _ stop

example :
    let token : Name := ⟨['T'], ⟨'T', [], rfl, by decide, by simp⟩, by decide⟩
    let rule : Name := ⟨['r'], ⟨'r', [], rfl, by decide, by simp⟩, by decide⟩
    let labelled : Alternative false := ⟨[⟨.ref token, some .star, rfl⟩], some rule, by simp⟩
    Grammar.write .plain ⟨token, [⟨rule, false, labelled, [⟨[], none, by simp⟩], by simp⟩]⟩ =
      "grammar T ; r : T* # r | ;".toList := by
  decide

end GrammarLint.Source
