import GrammarLint.Proofs.Declarations
import GrammarLint.Proofs.Linting
import GrammarLint.Proofs.PieceBreaks
import GrammarLint.Proofs.ScanShifts
import GrammarLint.Proofs.TokenMarks

open List

namespace GrammarLint

namespace Lexical

open Vocabulary

def byteOrderMark : Char := '\ufeff'

section Pieces

variable {word rest text piece : List Char} {effect : Effect}

/-- The mark is a letter: it takes what follows of a name with it. -/
theorem nextPiece_byteOrderMark (inside : ∀ d ∈ word, nameClass.contains d = true)
    (apart : ∀ d ∈ rest.head?, nameClass.contains d = false) :
    nextPiece .default (byteOrderMark :: (word ++ rest)) = .found .name (byteOrderMark :: word) rest := by
  have letter : nameStart.contains byteOrderMark = true := by decide +kernel
  have others : ∀ entry ∈ keywords ++ blockWords, byteOrderMark ∉ entry.1.toList := by decide
  have free : ∀ entry ∈ keywords ++ blockWords, entry.1.toList ≠ byteOrderMark :: word := fun entry mem same =>
    others entry mem (by simp [same])
  have read := @nextPiece_name _ (byteOrderMark :: word)
    (Bool.and_eq_true_iff.mpr ⟨letter, all_eq_true.mpr inside⟩) apart fun opener => by
      obtain ⟨entry, mem, same⟩ := mem_map.mp opener
      exact absurd same (free entry (mem_append_right _ mem))
  have effect : wordRule (byteOrderMark :: word) = nameRule := by
    rfl
  rwa [effect] at read

def typeKeywords : List (String × Kind) :=
  [("lexer", .lexerKeyword), ("parser", .parserKeyword), ("grammar", .grammarKeyword)]

variable {entry : String × Kind}

theorem keyword_piece (found : nextPiece .default text = .found effect piece rest)
    (mem : entry ∈ typeKeywords) (kind : effect.kind? = some entry.2) : piece = entry.1.toList := by
  have only : ∀ entry ∈ typeKeywords, ∀ rule ∈ defaultRules, rule.effect.kind? = some entry.2 →
      rule = Vocabulary.word entry.1 entry.2 := by decide
  have greedy : ∀ entry ∈ typeKeywords, (Pattern.literal entry.1).isGreedy false = true := by decide
  obtain ⟨rule, wins, rfl⟩ := nextPiece_wins found
  have same := only entry mem rule wins.mem kind
  subst same
  exact Pattern.takes_literal.mp (wins.takes rfl (greedy entry mem))

theorem typeKeywords_letters : ∀ entry ∈ typeKeywords, isNameText entry.1.toList = true := by
  decide +kernel

variable (found : nextPiece .default text = .found effect piece rest)

include found

/-- A keyword is not followed by more of a name. -/
theorem keyword_apart
    (mem : entry ∈ typeKeywords) (kind : effect.kind? = some entry.2) :
    ∀ d ∈ rest.head?, nameClass.contains d = false := by
  rcases nextPiece_found_cases found with ⟨_, -, -, -, rfl⟩ | ⟨-, longest, -⟩
  · simp
  · intro d isHead
    obtain ⟨later, rfl⟩ := head?_eq_some_iff.mp isHead
    have unfinished := longest [d] later (by simp) rfl nameRule (by decide)
    have named := typeKeywords_letters entry mem
    rw [← keyword_piece found mem kind] at named
    rw [← Bool.not_eq_true, @Racer.after_isDone false nameRule _ rfl rfl, takes_name] at unfinished
    obtain _ | ⟨c, cs⟩ := piece
    · cases named
    · simpa [isNameText, Bool.and_eq_true_iff.mp named] using unfinished

/-- Blanks and comments do not begin with a part of a name. -/
theorem aside_apart
    (aside : effect.isAside = true) : ∀ d ∈ text.head?, nameClass.contains d = false := by
  have blank : ∀ b ∈ (Racer.after blankRule []).branches, ∀ s ∈ b.awaits, s = .ofChars false blankChars := by
    decide +kernel
  have apart : ∀ c ∈ '/' :: blankChars, nameClass.contains c = false := by decide +kernel
  obtain ⟨rule, mem, rfl, c, later, rfl, b, inBranches, s, waits, contains⟩ := default_first found
  have first : c ∈ '/' :: blankChars := by
    rcases (asides_start .default rule mem aside).2 with rfl | slash
    · rw [blank b inBranches s waits, CharClass.ofChars, CharClass.contains_chars] at contains
      exact mem_cons_of_mem _ (by simpa using contains)
    · rw [slash b inBranches s waits, CharClass.ofChars, CharClass.contains_chars] at contains
      rw [show c = '/' by simpa using contains]
      exact mem_cons_self ..
  rw [← (Scanner.found_split found).1]
  intro d isHead
  cases isHead
  exact apart c first

end Pieces

namespace Scanner

/-- Errors stay. -/
theorem readOn_errors (s : Scanner) (begun : Position) (text : List Char) (errors : List Position) :
    errors ⊆ (s.readOn begun text errors).errors := by
  induction s, begun, text, errors using readOn_cases with
  | nothing lost used => rw [readOn_nothing lost used]; exact List.Subset.refl _
  | skip lost more ih =>
    rw [readOn_skip lost more]
    exact List.Subset.trans (subset_append_left ..) ih
  | lost lost something =>
    rw [readOn_lost lost something]
    exact subset_append_left ..
  | token found applied => rw [readOn_token found applied]; exact List.Subset.refl _
  | more found applied ih =>
    rw [readOn_more found applied]
    exact ih

end Scanner

/-- Behind the mark, and the part of a name that it takes with it, the scanner is one column further and
takes all for a parser rule. -/
theorem scan_mark (word rest : List Char) (inside : ∀ d ∈ word, nameClass.contains d = true)
    (apart : ∀ d ∈ rest.head?, nameClass.contains d = false) (s : Scanner)
    (behind : s = ⟨rest, Position.start.advanceAll word, .default, [], s.scope, rest.isEmpty⟩) (fuel : Nat) :
    (Scanner.start (byteOrderMark :: (word ++ rest))).scanOn (fuel + 1) =
      ⟨⟨.ruleRef, String.ofList (byteOrderMark :: word), .start, .main⟩ ::
          ((s.shift 1 .parserRule).scanOn fuel).tokens,
        ((s.shift 1 .parserRule).scanOn fuel).errors, ((s.shift 1 .parserRule).scanOn fuel).finish⟩ := by
  have found := nextPiece_byteOrderMark inside apart
  have lower : Text.isUpper byteOrderMark = false := by decide +kernel
  have kind : Scanner.nameKind (byteOrderMark :: word) = .ruleRef := by simp [Scanner.nameKind, lower]
  have place : Position.start.advanceAll (byteOrderMark :: word) = (Position.start.advanceAll word).indent 1 := by
    rw [Position.indent_advanceAll (by decide)]
    rfl
  have next : (Scanner.start (byteOrderMark :: (word ++ rest))).next =
      ⟨⟨.ruleRef, String.ofList (byteOrderMark :: word), .start, .main⟩, [], s.shift 1 .parserRule⟩ := by
    have read := @Scanner.readOn_token (Scanner.start (byteOrderMark :: (word ++ rest))) _ .start [] _ _ []
      .name _ _ found rfl
    rw [behind]
    refine read.trans ?_
    simp only [Scanner.moveTo, Scanner.start, Scanner.shift, place]
    rfl
  rw [Scanner.scanOn, next]
  rfl

/-- How the mark changes the tokens of a text: it is a name, together with the first word of the text if
that is at the start, and the other tokens are one column further if they are in the first line. -/
structure Prefixed (text : List Char) (front rest : List Token) (mark : Token) : Prop where
  tokens : (scan text).tokens = front ++ rest
  marked : (scan (byteOrderMark :: text)).tokens = mark :: rest.map (Token.change (.move (Position.indent 1)))
  finish : (scan (byteOrderMark :: text)).finish = (scan text).finish.indent 1
  kind : mark.kind = .ruleRef
  channel : mark.channel = .main
  spelled : mark.text = "\ufeff" ++ String.join (front.map (·.text))
  front : front = [] ∧ ¬ "grammar".toList <+: text ∨ ∃ word, front = [word] ∧ word.channel = .main ∧
    (word.kind = .grammarKeyword ↔ "grammar".toList <+: text)

variable {text piece rest : List Char}

/-- A text without an error at its start begins with a piece that is found. -/
theorem start_found (some_ : text ≠ []) (clean : Position.start ∉ (scan text).errors) :
    ∃ effect piece rest, nextPiece .default text = .found effect piece rest := by
  cases first : nextPiece .default text with
  | found effect piece rest => exact ⟨effect, piece, rest, rfl⟩
  | skipped lost rest =>
    refine absurd ?_ clean
    have read : Position.start ∈ (Scanner.start text).next.errors := by
      show Position.start ∈ ((Scanner.start text).readOn .start [] []).errors
      by_cases used : rest = []
      · subst used
        rw [Scanner.readOn_lost first fun nothing => absurd nothing some_]
        simp
      · rw [Scanner.readOn_skip first used]
        exact Scanner.readOn_errors _ _ _ _ (by simp)
    rw [scan, Scanner.scanOn]
    split
    · exact read
    · exact mem_append_left _ read

variable {heads later : List Kind} {effect : Effect} {entry : String × Kind} {kind : Kind}

theorem prefixed_aside (found : nextPiece .default text = .found effect piece rest)
    (aside : effect.isAside = true) (plain : ∀ kind ∈ heads, kind ∈ Scanner.headKinds)
    (kinds : mainKinds (scan text).tokens = heads ++ .semicolon :: later) :
    ∃ mark, Prefixed text [] (scan text).tokens mark := by
  have apart := aside_apart found aside
  have some_ : text ≠ [] := by
    rintro rfl
    rw [show (scan []).tokens = [] by decide +kernel] at kinds
    simp [mainKinds] at kinds
  have ready : Scanner.start text =
      ⟨text, Position.start.advanceAll [], .default, [], (Scanner.start text).scope, text.isEmpty⟩ := by
    simp [Scanner.start, Position.advanceAll, some_]
  have scanned := scan_mark [] text (by simp) apart _ ready (text.length + 1)
  have same := @Scanner.scanOn_declaration (Scanner.start text) 1 .parserRule (text.length + 1) heads later
    (Nat.le_refl 1) (Scanner.start_between text) (Scanner.start_within text)
    (by simp [Scanner.headScopes, Scanner.start]) (by simp [Scanner.headScopes]) plain kinds
  rw [same] at scanned
  refine ⟨⟨.ruleRef, String.ofList [byteOrderMark], .start, .main⟩, ⟨rfl, ?_, ?_, rfl, rfl, ?_, .inl ⟨rfl, ?_⟩⟩⟩
  · exact congrArg Scan.tokens scanned
  · exact congrArg Scan.finish scanned
  · decide
  · rintro ⟨behind, rfl⟩
    have letter : nameClass.contains 'g' = false := apart 'g' rfl
    exact absurd letter (by decide +kernel)

theorem prefixed_keyword (mem : entry ∈ typeKeywords)
    (found : nextPiece .default text = .found (.token entry.2) piece rest)
    (plain : ∀ kind ∈ heads, kind ∈ Scanner.headKinds)
    (kinds : mainKinds (scan text).tokens = heads ++ .semicolon :: later) :
    ∃ word others mark, Prefixed text [word] others mark := by
  have about : ∀ entry ∈ typeKeywords, entry.2 ≠ .endOfFile ∧ entry.2 ≠ .semicolon ∧
      Scope.outside.after entry.2 = .outside ∧
      (entry.2 = .grammarKeyword → entry.1 = "grammar") ∧
      (entry.1.toList.head? = some 'g' → entry.2 = .grammarKeyword) := by decide
  obtain ⟨notEnd, notClosed, scope, grammar, first⟩ := about entry mem
  have named := typeKeywords_letters entry mem
  obtain ⟨c, cs, spelling⟩ : ∃ c cs, entry.1.toList = c :: cs :=
    exists_cons_of_ne_nil fun empty => by simp [empty, isNameText] at named
  have spelled := keyword_piece found mem rfl
  have apart := keyword_apart found mem rfl
  have split := (Scanner.found_split found).1
  have letters : ∀ d ∈ piece, nameClass.contains d = true := nameText_all (spelled ▸ named)
  -- Without the mark the keyword is a token of its own.
  have next : (Scanner.start text).next = ⟨⟨entry.2, String.ofList piece, .start, .main⟩, [],
      ⟨rest, Position.start.advanceAll piece, .default, [], .outside, rest.isEmpty⟩⟩ := by
    have read := @Scanner.readOn_token (Scanner.start text) _ .start [] _ _ [] (.token entry.2) _ _ found rfl
    refine read.trans ?_
    rw [show (Scanner.moveTo piece rest (Scanner.start text)).scope.after entry.2 = .outside from scope]
    rfl
  generalize behind : (⟨rest, Position.start.advanceAll piece, .default, [], .outside, rest.isEmpty⟩ : Scanner) =
    s at next
  have between : s.Between := by
    rw [← behind]
    exact .inl rfl
  have shorter : s.rest.length < text.length := by
    rw [← behind, ← split, spelled, spelling]
    simp
  have whole : scan text = ⟨⟨entry.2, String.ofList piece, .start, .main⟩ :: (s.scanOn text.length).tokens,
      (s.scanOn text.length).errors, (s.scanOn text.length).finish⟩ := by
    rw [scan, Scanner.scanOn, next]
    simp [notEnd]
  rw [whole, mainKinds_cons] at kinds
  obtain _ | ⟨head, heads⟩ := heads
  · exact absurd (cons.inj kinds).1 notClosed
  have kinds' := (cons.inj kinds).2
  have inside : 1 ≤ s.position.line := by
    rw [← behind]
    exact Position.one_le_line_advanceAll (Nat.le_refl 1) piece
  have same := @Scanner.scanOn_declaration s 1 .parserRule text.length heads later inside between
    (by rw [← behind]; rfl) (by rw [← behind]; simp [Scanner.headScopes]) (by simp [Scanner.headScopes])
    (fun kind inHeads => plain kind (mem_cons_of_mem head inHeads)) kinds'
  have fuel' := (s.shift 1 .parserRule).scanOn_fuel between shorter (Nat.le_succ text.length)
  have scanned := scan_mark piece rest letters apart s (by rw [← behind]) (text.length + 1)
  rw [split, fuel', same] at scanned
  refine ⟨_, _, ⟨.ruleRef, String.ofList (byteOrderMark :: piece), .start, .main⟩,
    ⟨congrArg Scan.tokens whole, congrArg Scan.tokens scanned, ?_, rfl, rfl, ?_,
      .inr ⟨_, rfl, rfl, fun isGrammar => ?_, fun starts => ?_⟩⟩⟩
  · rw [whole]
    exact congrArg Scan.finish scanned
  · simp [byteOrderMark]
  · rw [← split, spelled, grammar isGrammar]
    exact prefix_append ..
  · obtain ⟨more, same⟩ := starts
    rw [← split, spelled, spelling] at same
    exact first (by rw [spelling, ← (cons.inj same).1]; rfl)

/-- The tokens of the text begin with the declaration of a grammar. -/
def DeclaresGrammar (text : List Char) : Prop :=
  ∃ word, Phrase.Derives Phrase.Category.grammarDecl.form word ∧ word <+: mainKinds (scan text).tokens

theorem DeclaresGrammar.kinds (declares : DeclaresGrammar text) :
    ∃ type ∈ Phrase.typeWords, ∃ name ∈ Phrase.nameKinds, ∃ later,
      mainKinds (scan text).tokens = type ++ name :: .semicolon :: later := by
  obtain ⟨word, derives, later, kinds⟩ := declares
  obtain ⟨type, isType, name, isName, rfl⟩ := Phrase.derives_grammarDecl derives
  exact ⟨type, isType, name, isName, later, by simp [← kinds]⟩

/-- A piece that ends a token of the main channel at the start of a text gives the first kind. -/
theorem mainKinds_first {s : Scanner} (found : nextPiece .default text = .found effect piece rest)
    (applied : ((Scanner.start text).moveTo piece rest).apply effect piece = (some (kind, .main), s)) :
    (mainKinds (scan text).tokens).head? = some kind := by
  obtain ⟨rule, mem, same⟩ := nextPiece_effect found
  have more : kind ≠ .endOfFile := Scanner.apply_kind_ne_endOfFile
    (same ▸ Scanner.rules_never_endFile .default rule mem) applied
  have next := @Scanner.readOn_token (Scanner.start text) _ .start [] _ _ [] effect _ _ found applied
  have more' : (Scanner.start text).next.token.kind ≠ .endOfFile := by
    rw [show (Scanner.start text).next = _ from next]
    exact more
  rw [scan, Scanner.scanOn_tokens_of_ne more', show (Scanner.start text).next = _ from next]
  rfl

/-- How the mark changes the tokens of a text that begins with a declaration. -/
theorem DeclaresGrammar.prefixed (declares : DeclaresGrammar text)
    (clean : Position.start ∉ (scan text).errors) : ∃ front rest mark, Prefixed text front rest mark := by
  obtain ⟨type, isType, name, isName, later, kinds⟩ := declares.kinds
  have heads : ∀ type ∈ Phrase.typeWords, (∀ kind ∈ type, kind ∈ Scanner.headKinds) ∧
      ∃ entry ∈ typeKeywords, type.head? = some entry.2 := by decide
  have names : ∀ kind ∈ Phrase.nameKinds, kind ∈ Scanner.headKinds := by decide
  obtain ⟨inHeads, entry, mem, first⟩ := heads type isType
  have plain : ∀ kind ∈ type ++ [name], kind ∈ Scanner.headKinds := by
    simp only [mem_append, mem_singleton]
    rintro kind (inType | rfl)
    · exact inHeads kind inType
    · exact names kind isName
  have kinds' : mainKinds (scan text).tokens = (type ++ [name]) ++ .semicolon :: later := by simp [kinds]
  have some_ : text ≠ [] := by
    rintro rfl
    rw [show (scan []).tokens = [] by decide +kernel] at kinds
    simp [mainKinds] at kinds
  have firstKind : (mainKinds (scan text).tokens).head? = some entry.2 := by
    rw [kinds, head?_append, first]
    rfl
  obtain ⟨effect, piece, rest, found⟩ := start_found some_ clean
  have isFirst : ∀ {kind : Kind} {s : Scanner},
      ((Scanner.start text).moveTo piece rest).apply effect piece = (some (kind, .main), s) →
      kind = entry.2 := fun applied =>
    Option.some.inj ((mainKinds_first found applied).symm.trans firstKind)
  have others : ∀ entry ∈ typeKeywords, entry.2 ∉ [Kind.tokenRef, .ruleRef, .beginArgument] := by decide
  have other := others entry mem
  rcases Scanner.default_effect found with isPlain | rfl
  · cases effect with
    | aside kind channel =>
      obtain ⟨mark, prefixed⟩ := prefixed_aside found rfl plain kinds'
      exact ⟨[], _, mark, prefixed⟩
    | token kind =>
      rw [isFirst rfl] at found
      obtain ⟨word, rest, mark, prefixed⟩ := prefixed_keyword mem found plain kinds'
      exact ⟨[word], rest, mark, prefixed⟩
    | name =>
      have same : Scanner.nameKind piece = entry.2 := isFirst rfl
      refine absurd ?_ other
      rw [← same]
      unfold Scanner.nameKind
      split <;> simp
    | openBracket | openNested | closeBracket | more | close _ => cases isPlain
  · have same : Kind.beginArgument = entry.2 := isFirst rfl
    refine absurd ?_ other
    simp [← same]

theorem Origin.keyword {content : List Char} {position : Position} (origin : Origin content position kind text) (mem : entry ∈ typeKeywords)
    (same : kind = entry.2) : text = entry.1.toList := by
  have others : ∀ entry ∈ typeKeywords, entry.2 ∉ [Kind.tokenRef, .ruleRef, .beginArgument, .argumentContent,
    .endArgument, .lexerCharSet, .unterminatedCharSet] := by decide
  have other := others entry mem
  rw [← same] at other
  cases origin with
  | piece found always =>
    obtain ⟨_, _, -, -, found⟩ := found
    exact keyword_piece found mem (same ▸ always)
  | name =>
    refine absurd ?_ other
    unfold Scanner.nameKind
    split <;> simp
  | opening => simp at other
  | argument inside => fin_cases inside <;> simp at other
  | charSet inside => fin_cases inside <;> simp at other

theorem keyword_text {text : List Char} {token : Token} (inside : token ∈ (scan text).tokens)
    {entry : String × Kind} (mem : entry ∈ typeKeywords) (kind : token.kind = entry.2) :
    token.text = entry.1 := by
  rw [← String.toList_inj]
  exact (scan_origin text token inside).keyword mem kind

/-- The kind of grammar is spelled in one of three ways. -/
theorem type_text {words : List Token} (type : words.map (·.kind) ∈ Phrase.typeWords)
    (inside : ∀ token ∈ words, token ∈ (scan text).tokens) :
    String.join (words.map (·.text)) ∈ ["lexergrammar", "parsergrammar", "grammar"] := by
  have lexer : ("lexer", Kind.lexerKeyword) ∈ typeKeywords := by decide
  have parser : ("parser", Kind.parserKeyword) ∈ typeKeywords := by decide
  have grammar : ("grammar", Kind.grammarKeyword) ∈ typeKeywords := by decide
  rcases Phrase.typeWords_cases type with ⟨first, second, rfl, kind, kind'⟩ | ⟨only, rfl, kind⟩
  · have last := keyword_text (inside second (by simp)) grammar kind'
    simp only [mem_cons, not_mem_nil, or_false] at kind
    rcases kind with kind | kind
    · simp [keyword_text (inside first (by simp)) lexer kind, last]
    · simp [keyword_text (inside first (by simp)) parser kind, last]
  · simp [keyword_text (inside only (by simp)) grammar kind]

end Lexical

end GrammarLint
