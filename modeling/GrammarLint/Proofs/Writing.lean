import GrammarLint.Proofs.Derivation
import GrammarLint.Proofs.Spelling

open List

namespace GrammarLint.Source

open Lexical

/-- A name of letters, digits and underscores, a letter first, that is no keyword. -/
structure Name where
  text : List Char
  isWord : IsWord text
  free : ∀ entry ∈ keywords, text ≠ entry.1.toList

def Name.isToken (name : Name) : Bool := name.text.head?.any fun c => 'A' ≤ c && c ≤ 'Z'

structure Literal where
  body : List Char
  plain : ∀ c ∈ body, c ∉ literalStops

structure CharSet where
  body : List Char
  plain : ∀ c ∈ body, c ∉ setStops

inductive Atom where
  | ref (name : Name)
  | literal (literal : Literal)
  | set (set : CharSet)

/-- Lexer rules refer to tokens only, and only they have character sets. -/
def Atom.fits (inLexer : Bool) : Atom → Bool
  | .ref name => !inLexer || name.isToken
  | .literal _ => true
  | .set _ => inLexer

structure Element (inLexer : Bool) where
  atom : Atom
  suffix : Option Suffix
  fits : atom.fits inLexer = true

/-- An alternative, which may be empty. Those of lexer rules have no label. -/
structure Alternative (inLexer : Bool) where
  elements : List (Element inLexer)
  label : Option Name
  unlabelled : inLexer = true → label = none

/-- A rule with at least one alternative. It is a lexer rule if it has the name of a token; only such
a rule can be a fragment. -/
structure Rule where
  name : Name
  isFragment : Bool
  first : Alternative name.isToken
  others : List (Alternative name.isToken)
  fragment : isFragment = true → name.isToken = true

structure Grammar where
  name : Name
  rules : List Rule

def Name.lexeme (name : Name) : Lexeme :=
  ⟨if name.isToken then .tokenRef else .ruleRef, name.text⟩

def Atom.lexeme : Atom → Lexeme
  | .ref name => name.lexeme
  | .literal l => ⟨.stringLiteral, '\'' :: l.body ++ ['\'']⟩
  | .set s => ⟨.lexerCharSet, '[' :: s.body ++ [']']⟩

def fixed (kind : Kind) (spelling : String) : Word := ⟨⟨kind, spelling.toList⟩, none⟩

def Name.word (name : Name) : Word := ⟨name.lexeme, none⟩

def Element.word {inLexer : Bool} (e : Element inLexer) : Word := ⟨e.atom.lexeme, e.suffix⟩

def Alternative.words {inLexer : Bool} (a : Alternative inLexer) : List Word :=
  a.elements.map Element.word ++
    match a.label with
    | none => []
    | some label => [fixed .pound "#", label.word]

def Rule.body (r : Rule) : List Word :=
  r.first.words ++ r.others.flatMap fun a => fixed .bar "|" :: a.words

def Rule.words (r : Rule) : List Word :=
  (if r.isFragment then [fixed .fragmentKeyword "fragment"] else []) ++
    (r.name.word :: fixed .colon ":" :: (r.body ++ [fixed .semicolon ";"]))

def Grammar.words (g : Grammar) : List Word :=
  fixed .grammarKeyword "grammar" :: g.name.word :: fixed .semicolon ";" :: g.rules.flatMap Rule.words

def Grammar.write (layout : Layout) (g : Grammar) : List Char := layout.write g.words

theorem letters_cased : ∀ c ∈ letters, Text.isUpper c = ('A' ≤ c && c ≤ 'Z') ∧
    Text.isLower c = !('A' ≤ c && c ≤ 'Z') := by
  decide +kernel

variable (name : Name) (r : Rule) (g : Grammar) (us : List Word) (w : Word) {words : List Word} {back : Nat}
  {cat : Category}

theorem Name.nameKind : Scanner.nameKind name.text = name.lexeme.kind := by
  obtain ⟨text, ⟨c, rest, rfl, letter, -⟩, free⟩ := name
  simp [Scanner.nameKind, Name.lexeme, Name.isToken, (letters_cased c letter).1]

theorem Name.legible (scope : Scope) : name.lexeme.Legible scope := by
  have solid : ∀ c ∈ letters, c ∉ blankChars ∧ c ≠ '\x7b' := by decide
  obtain ⟨c, rest, text, letter, -⟩ := name.isWord
  have spelled : name.lexeme.text = c :: rest := text
  refine ⟨by simp [spelled], by simpa [spelled] using solid c letter, ?_, fun rest apart => ?_⟩
  · unfold Name.lexeme
    split <;> simp
  · have yields := yields_word name.isWord apart scope
    rwa [wordKind_of_free name.free, name.nameKind] at yields

theorem keyword_yields {entry : String × Kind} (mem : entry ∈ keywords) {rest : List Char}
    (apart : Apart rest) (scope : Scope) :
    Yields scope (entry.1.toList ++ rest) entry.2 entry.1.toList .main rest := by
  have shape : ∀ entry ∈ keywords, (∀ c ∈ entry.1.toList.take 1, c ∈ letters) ∧
      ∀ c ∈ entry.1.toList.tail, c ∈ nameChars := by
    decide
  have kind : ∀ entry ∈ keywords, wordKind entry.1.toList = entry.2 := by decide +kernel
  have text_ne_nil : ∀ entry ∈ keywords, entry.1.toList ≠ [] := by decide
  have isWord : IsWord entry.1.toList := by
    obtain ⟨c, rest, split⟩ := exists_cons_of_ne_nil (text_ne_nil entry mem)
    have known := shape entry mem
    rw [split] at known ⊢
    exact ⟨c, rest, rfl, known.1 c (by simp), known.2⟩
  exact kind entry mem ▸ yields_word isWord apart scope

theorem fixed_legible (entry : String × Kind) (mem : entry ∈ marks ++ keywords) (scope : Scope) :
    (fixed entry.2 entry.1).lexeme.Legible scope := by
  have text_ne_nil : ∀ entry ∈ marks ++ keywords, entry.1.toList ≠ [] := by decide
  have solid : ∀ entry ∈ marks ++ keywords, ∀ c ∈ entry.1.toList,
      c ∉ blankChars ∧ c ≠ '\x7b' := by
    decide
  have kind : ∀ entry ∈ marks ++ keywords, entry.2 ≠ .endOfFile := by decide
  refine ⟨text_ne_nil entry mem, fun c first => solid entry mem c (mem_of_head? first),
    kind entry mem, fun rest apart => ?_⟩
  rcases mem_append.mp mem with mark | keyword
  · exact yields_mark mark apart scope
  · exact keyword_yields keyword apart scope

def bodyScope (inLexer : Bool) : Scope := if inLexer then .lexerRule else .parserRule

variable {inLexer : Bool} {atom : Atom}

theorem Atom.legible (fits : atom.fits inLexer = true) : atom.lexeme.Legible (bodyScope inLexer) := by
  cases atom with
  | ref name => exact name.legible _
  | literal l =>
    exact ⟨cons_ne_nil _ _, by simp [Atom.lexeme, blankChars], by simp [Atom.lexeme],
      fun rest _ => yields_literal l.plain rest _⟩
  | set s =>
    cases fits
    exact ⟨cons_ne_nil _ _, by simp [Atom.lexeme, blankChars], by simp [Atom.lexeme],
      fun rest _ => yields_set s.plain rest⟩

/-- A word that can be read in the scope and does not end it. -/
def Stays (scope : Scope) (w : Word) : Prop :=
  w.lexeme.Legible scope ∧ scope.after w.lexeme.kind = scope

theorem legible_append {scope : Scope} {us vs : List Word} (stays : ∀ w ∈ us, Stays scope w)
    (later : Legible scope vs) : Legible scope (us ++ vs) := by
  induction us with
  | nil => exact later
  | cons w us ih =>
    obtain ⟨legible, same⟩ := stays w mem_cons_self
    refine ⟨legible, ?_⟩
    rw [same]
    exact ih fun v mem => stays v (mem_cons_of_mem _ mem)

/-- Within a rule only a semicolon or the options of a lexer rule change the scope. -/
theorem bodyScope_after {kind : Kind} (inside : kind ≠ .semicolon) (noOptions : kind ≠ .optionsOpen) :
    (bodyScope inLexer).after kind = bodyScope inLexer := by
  cases inLexer with
  | false => simp [bodyScope, Scope.after, inside]
  | true => cases kind <;> simp_all [bodyScope, Scope.after]

theorem Name.stays (inLexer : Bool) : Stays (bodyScope inLexer) name.word := by
  refine ⟨name.legible _, bodyScope_after ?_ ?_⟩ <;> simp only [Name.word, Name.lexeme] <;>
    split <;> simp

theorem Element.stays (e : Element inLexer) : Stays (bodyScope inLexer) e.word := by
  refine ⟨Atom.legible e.fits, bodyScope_after ?_ ?_⟩ <;> simp only [Element.word] <;>
    cases e.atom <;> simp only [Atom.lexeme, Name.lexeme] <;> try split
  all_goals simp

theorem fixed_stays (entry : String × Kind) (mem : entry ∈ marks ++ keywords)
    (inside : entry.2 ≠ .semicolon) (inLexer : Bool) :
    Stays (bodyScope inLexer) (fixed entry.2 entry.1) := by
  have noOptions : ∀ entry ∈ marks ++ keywords, entry.2 ≠ .optionsOpen := by decide
  exact ⟨fixed_legible entry mem _, bodyScope_after inside (noOptions entry mem)⟩

theorem Alternative.stays (a : Alternative inLexer) : ∀ w ∈ a.words, Stays (bodyScope inLexer) w := by
  intro w mem
  rcases mem_append.mp mem with inElements | inLabel
  · obtain ⟨e, -, rfl⟩ := mem_map.mp inElements
    exact e.stays
  · split at inLabel
    · simp at inLabel
    · rename_i label _
      simp only [mem_cons, not_mem_nil, or_false] at inLabel
      rcases inLabel with rfl | rfl
      · exact fixed_stays ("#", .pound) (by decide) (by decide) inLexer
      · exact label.stays inLexer

theorem Rule.body_stays : ∀ w ∈ r.body, Stays (bodyScope r.name.isToken) w := by
  intro w mem
  rcases mem_append.mp mem with inFirst | inOthers
  · exact r.first.stays w inFirst
  · obtain ⟨a, -, inside⟩ := mem_flatMap.mp inOthers
    rcases mem_cons.mp inside with rfl | inside
    · exact fixed_stays ("|", .bar) (by decide) (by decide) _
    · exact a.stays w inside

/-- A name outside of rules starts one, and a semicolon ends it. -/
theorem Name.enters :
    Scope.outside.after name.word.lexeme.kind = bodyScope name.isToken := by
  unfold Name.word Name.lexeme bodyScope
  split <;> rfl

theorem semicolon_legible (later : Legible .outside words) :
    Legible (bodyScope inLexer) (fixed .semicolon ";" :: words) := by
  have left : (bodyScope inLexer).after .semicolon = .outside := by
    unfold bodyScope
    split <;> rfl
  refine ⟨fixed_legible (";", .semicolon) (by decide) _, ?_⟩
  rwa [show (fixed .semicolon ";").lexeme.kind = .semicolon from rfl, left]

theorem Rule.legible (later : Legible .outside words) :
    Legible .outside (r.words ++ words) := by
  rw [Rule.words, append_assoc, cons_append, cons_append, append_assoc]
  refine legible_append (fun w mem => ?_) ⟨r.name.legible _, ?_⟩
  · split at mem
    · cases mem_singleton.mp mem
      exact ⟨fixed_legible ("fragment", .fragmentKeyword) (by decide) _, rfl⟩
    · simp at mem
  · rw [r.name.enters]
    have colon := fixed_stays (":", .colon) (by decide) (by decide) r.name.isToken
    refine ⟨colon.1, ?_⟩
    rw [colon.2]
    exact legible_append r.body_stays (semicolon_legible later)

theorem rules_legible (rules : List Rule) : Legible .outside (rules.flatMap Rule.words) := by
  induction rules with
  | nil => trivial
  | cons r rules ih => exact r.legible ih

/-- All words of a grammar can be read. -/
theorem Grammar.legible : Legible .outside g.words := by
  refine ⟨fixed_legible ("grammar", .grammarKeyword) (by decide) _, g.name.legible _, ?_⟩
  rw [show Scope.outside.after (fixed .grammarKeyword "grammar").lexeme.kind = .outside from rfl,
    g.name.enters]
  exact semicolon_legible (rules_legible g.rules)

open Phrase (Category Form Derives Lookahead)

def lexemesOf (words : List Word) : List Lexeme := words.flatMap Word.lexemes

theorem lexemesOf_append (vs : List Word) : lexemesOf (us ++ vs) = lexemesOf us ++ lexemesOf vs :=
  flatMap_append

theorem lexemesOf_cons (words : List Word) :
    lexemesOf (w :: words) = w.lexemes ++ lexemesOf words :=
  flatMap_cons

def kindsOf (words : List Word) : List Kind := (lexemesOf words).map (·.kind)

theorem kindsOf_append (vs : List Word) : kindsOf (us ++ vs) = kindsOf us ++ kindsOf vs := by
  rw [kindsOf, lexemesOf_append, map_append]
  rfl

theorem kindsOf_cons (words : List Word) :
    kindsOf (w :: words) = w.lexemes.map (·.kind) ++ kindsOf words := by
  rw [kindsOf, lexemesOf_cons, map_append]
  rfl

/-- A loop derives any number of its rounds. -/
theorem derives_rounds {α : Type} {lookahead : Lookahead} {greedy : Bool} {f : Form}
    {words : α → List Word} {items : List α} (each : ∀ item ∈ items, Derives f (kindsOf (words item))) :
    Derives (.rounds back lookahead greedy f) (kindsOf (items.flatMap words)) := by
  induction items with
  | nil => exact .stop
  | cons item items ih =>
    rw [flatMap_cons, kindsOf_append]
    exact .round (each item mem_cons_self)
      (ih fun later mem => each later (mem_cons_of_mem _ mem))

theorem Name.derives : Derives Category.identifier.form [name.lexeme.kind] := by
  refine .oneOf ?_
  unfold Name.lexeme
  split <;> simp

theorem suffix_derives (suffix : Suffix) : Derives Category.ebnfSuffix.form [suffix.lexeme.kind] := by
  cases suffix with
  | optional => exact .choice (.left (.seq .token .absent))
  | star => exact .choice (.right (.left (.seq .token .absent)))
  | plus => exact .choice (.right (.right (.seq .token .absent)))

theorem Name.derives_atom : Derives Category.atom.form [name.lexeme.kind] := by
  unfold Name.lexeme
  split
  · exact .choice (.left (.call (.choice (.left (.seq .token .absent)))))
  · exact .choice (.right (.left (.call (.seq .token (.seq .absent .absent)))))

theorem literal_derives : Derives Category.terminalDef.form [.stringLiteral] :=
  .choice (.right (.seq .token .absent))

theorem Atom.derives (fits : atom.fits false = true) : Derives Category.atom.form [atom.lexeme.kind] := by
  cases atom with
  | ref name => exact name.derives_atom
  | literal l => exact .choice (.left (.call literal_derives))
  | set s => cases fits

theorem Atom.derives_lexer (fits : atom.fits true = true) :
    Derives Category.lexerAtom.form [atom.lexeme.kind] := by
  cases atom with
  | ref name =>
    have isToken : name.isToken = true := fits
    simp only [Atom.lexeme, Name.lexeme, isToken, if_true]
    exact .choice (.right (.left (.call (.choice (.left (.seq .token .absent))))))
  | literal l => exact .choice (.right (.left (.call literal_derives)))
  | set s => exact .choice (.right (.right (.right (.left .token))))

theorem Element.derives (e : Element false) : Derives Category.element.form (kindsOf [e.word]) := by
  obtain ⟨atom, _ | suffix, fits⟩ := e
  · exact .choice (.right (.left (.seq (.call (Atom.derives fits)) (.choice (.right .empty)))))
  · exact .choice (.right (.left (.seq (.call (Atom.derives fits))
      (.choice (.left (.call (suffix_derives suffix)))))))

theorem Element.derives_lexer (e : Element true) :
    Derives Category.lexerElement.form (kindsOf [e.word]) := by
  obtain ⟨atom, _ | suffix, fits⟩ := e
  · exact .choice (.left (.seq (.call (Atom.derives_lexer fits)) .absent))
  · exact .choice (.left (.seq (.call (Atom.derives_lexer fits))
      (.present (.call (suffix_derives suffix)))))

/-- One or more elements are derived by a loop of them. -/
theorem elements_derive {index place : Nat}
    (each : ∀ e : Element inLexer, Derives cat.form (kindsOf [e.word])) (e : Element inLexer)
    (elements : List (Element inLexer)) :
    Derives (.plus index back (.call place cat)) (kindsOf ((e :: elements).map Element.word)) := by
  rw [map_cons, ← singleton_append, kindsOf_append, map_eq_flatMap]
  exact .plus (.call (each e)) (derives_rounds fun e _ => .call (each e))

theorem Alternative.derives (a : Alternative false) :
    Derives Category.labeledAlt.form (kindsOf a.words) := by
  rw [Alternative.words, kindsOf_append]
  refine .seq (.call ?_) ?_
  · cases a.elements with
    | nil => exact .choice (.right .empty)
    | cons e elements => exact .choice (.left (.seq .absent (elements_derive Element.derives e elements)))
  · cases a.label with
    | none => exact .absent
    | some label => exact .present (.seq .token (.call label.derives))

theorem Alternative.derives_lexer (a : Alternative true) :
    Derives Category.lexerAlt.form (kindsOf a.words) := by
  rw [Alternative.words, a.unlabelled rfl, append_nil]
  cases a.elements with
  | nil => exact .choice (.right .empty)
  | cons e elements =>
    rw [← append_nil (kindsOf _)]
    exact .choice (.left (.seq (.call (.choice (.left
      (elements_derive Element.derives_lexer e elements)))) .absent))

/-- Alternatives with bars between them are derived by a list with that separator. -/
theorem alternatives_derive {i j k l m : Nat}
    (each : ∀ a : Alternative inLexer, Derives cat.form (kindsOf a.words))
    (first : Alternative inLexer) (others : List (Alternative inLexer)) :
    Derives (.seq (.call i cat) (.star j k .one true (.seq (.token l .bar) (.call m cat))))
      (kindsOf (first.words ++ others.flatMap fun a => fixed .bar "|" :: a.words)) := by
  rw [kindsOf_append]
  refine .seq (.call (each first)) (.star (derives_rounds fun a _ => ?_))
  exact .seq .token (.call (each a))

theorem body_derives (isParser : inLexer = false) (first : Alternative inLexer)
    (others : List (Alternative inLexer)) : Derives Category.ruleBlock.form
      (kindsOf (first.words ++ others.flatMap fun a => fixed .bar "|" :: a.words)) := by
  subst isParser
  exact .call (alternatives_derive Alternative.derives first others)

theorem lexerBody_derives (isLexer : inLexer = true) (first : Alternative inLexer)
    (others : List (Alternative inLexer)) : Derives Category.lexerRuleBlock.form
      (kindsOf (first.words ++ others.flatMap fun a => fixed .bar "|" :: a.words)) := by
  subst isLexer
  exact .call (alternatives_derive Alternative.derives_lexer first others)

theorem Rule.derives : Derives Category.ruleSpec.form (kindsOf r.words) := by
  have kinds : kindsOf r.words = (if r.isFragment then [.fragmentKeyword] else []) ++
      (r.name.lexeme.kind :: .colon :: (kindsOf r.body ++ [.semicolon])) := by
    rw [Rule.words, kindsOf_append, kindsOf_cons, kindsOf_cons, kindsOf_append]
    split <;> rfl
  rw [kinds]
  cases isToken : r.name.isToken with
  | false =>
    have plain : r.isFragment = false := by
      rw [Bool.eq_false_iff]
      intro isFragment
      simpa [isToken] using r.fragment isFragment
    have noHandlers : Derives Category.exceptionGroup.form [] := .seq (.star .stop) .absent
    have spec : Derives Category.parserRuleSpec.form _ :=
      .seq .absent (.seq .token (.seq .absent (.seq .absent (.seq .absent (.seq .absent
        (.seq (.star .stop) (.seq .token (.seq (.call (body_derives isToken r.first r.others))
          (.seq .token (.call noHandlers))))))))))
    refine .choice (.left (.call ?_))
    simpa [plain, Name.lexeme, isToken, Rule.body] using spec
  | true =>
    refine .choice (.right (.call ?_))
    simp only [Name.lexeme, isToken, if_true]
    refine .seq ?_ (.seq .token (.seq .absent (.seq .token
      (.seq (.call (lexerBody_derives isToken r.first r.others)) .token))))
    split
    · exact .present .token
    · exact .absent

theorem Grammar.derives :
    Derives Category.grammarSpec.form (kindsOf g.words ++ [.endOfFile]) := by
  have declaration : Derives Category.grammarDecl.form
      ([.grammarKeyword] ++ ([g.name.lexeme.kind] ++ [.semicolon])) :=
    .seq (.call (.choice (.right (.right .token)))) (.seq (.call g.name.derives) .token)
  have rules : Derives Category.rules.form (kindsOf (g.rules.flatMap Rule.words)) :=
    .star (derives_rounds fun r _ => .call r.derives)
  have spec : Derives Category.grammarSpec.form _ :=
    .seq (.call declaration) (.seq (.star .stop) (.seq (.call rules) (.seq (.star .stop) .token)))
  simpa [Grammar.words, kindsOf_cons, Word.lexemes, fixed, Name.word] using spec

end GrammarLint.Source
