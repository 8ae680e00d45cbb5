import GrammarLint.Proofs.ByteOrderMark
import GrammarLint.Proofs.Layout

open List

namespace GrammarLint

namespace Phrase

open Lexical (Position Token byteOrderMark scan)

/-- The same tokens one column further, where the parser comes to them later. -/
def Change.behindMark (taken : Nat) (errors : List Position) : Change :=
  { Change.move (Position.indent 1) with taken := taken, errors := errors }

theorem tokensOf_leaves (tokens : List Token) : Tree.tokensOf (tokens.map .leaf) = tokens := by
  induction tokens with
  | nil => rfl
  | cons token tokens ih => simp [Tree.tokensOf, Tree.tokens, ih]

end Phrase

open Phrase

section Marked

open Lexical (byteOrderMark scan Token Position DeclaresGrammar)

variable {text : List Char} {words others : List Token} {name semicolon : Token}

/-- Where the mark leaves all behind the declaration as it is, it can only change the kind and the name of
the grammar. -/
theorem Grammar.ofText_behindMark (file : String) (taken : Nat) (errors : List Position)
    (tokens : mainTokens text = words ++ name :: semicolon :: others)
    (type : words.map (·.kind) ∈ typeWords) (named : name.kind ∈ nameKinds)
    (closed : semicolon.kind = .semicolon) {first name' : Token} {last : Option Token} {type' : List Tree}
    {dropped : List Token}
    (finish : (scan (byteOrderMark :: text)).finish = (scan text).finish.indent 1)
    (marked : Declares (mainTokens (byteOrderMark :: text)) (.endOfFile ((scan text).finish.indent 1))
      (declaration first last type' name' dropped (semicolon.change (.behindMark taken errors)))
      (.behind (semicolon.change (.behindMark taken errors))
        (others.map (Token.change (.behindMark taken errors))) (.endOfFile ((scan text).finish.indent 1))
        (words.length + 2 + taken) errors))
    (kind : GrammarKind.ofText (String.join ((Tree.tokensOf type').map (·.text))).toList =
      GrammarKind.ofText (String.join (words.map (·.text))).toList) :
    (Grammar.ofText file text).name = name.text ∧
    Grammar.ofText file (byteOrderMark :: text) =
      { (Grammar.ofText file text).relocate (Range.relocate (Position.indent 1)) with
        name := name'.text } := by
  have plain := declares_plain words others name semicolon (.endOfFile (scan text).finish) type named closed
  rw [← tokens] at plain
  obtain ⟨kindEq, nameEq, grammar⟩ := Grammar.ofTree_declared (.behindMark taken errors) (fun _ _ => rfl) file plain marked rfl
  refine ⟨nameEq, ?_⟩
  rw [kind, ← tokensOf_leaves words, ← kindEq] at grammar
  rw [Grammar.ofText, parse, finish]
  exact grammar

theorem GrammarKind.ofText_mark : ∀ type ∈ ["lexergrammar", "parsergrammar", "grammar"],
    GrammarKind.ofText ("\ufeff" ++ type).toList = GrammarKind.ofText type.toList := by decide +kernel

def Lexical.pushed (tokens : List Token) : List Token :=
  tokens.map (Token.change (.move (Position.indent 1)))

theorem Lexical.pushed_kinds (tokens : List Token) :
    (Lexical.pushed tokens).map (·.kind) = tokens.map (·.kind) := by
  simp [pushed, Function.comp_def]

theorem Lexical.pushed_texts (tokens : List Token) :
    (Lexical.pushed tokens).map (·.text) = tokens.map (·.text) := by
  simp [pushed, Function.comp_def, Token.change, Change.move]

section Cases

variable {mark : Token} (file : String) (letter : mark.kind = .ruleRef)
  (tokens : mainTokens text = words ++ name :: semicolon :: others) (type : words.map (·.kind) ∈ typeWords)
  (named : name.kind ∈ nameKinds) (closed : semicolon.kind = .semicolon)
  (finish : (scan (byteOrderMark :: text)).finish = (scan text).finish.indent 1)

include letter tokens type named closed finish

/-- The mark is dropped where the kind of grammar stands behind it, all of it or its second word. -/
theorem Grammar.ofText_dropping {words' : List Token} {taken : Nat}
    (marked : mainTokens (byteOrderMark :: text) = mark :: Lexical.pushed (words' ++ name :: semicolon :: others))
    (type' : words'.map (·.kind) ∈ typeWords) (length : words.length + taken = words'.length + 1)
    (kind : GrammarKind.ofText (mark.text ++ String.join (words'.map (·.text))).toList =
      GrammarKind.ofText (String.join (words.map (·.text))).toList) :
    Grammar.ofText file (byteOrderMark :: text) =
      (Grammar.ofText file text).relocate (Range.relocate (Position.indent 1)) := by
  rw [← Lexical.pushed_kinds] at type'
  have declared := declares_dropping (Lexical.pushed words') (Lexical.pushed others) mark
    (name.change (.move (Position.indent 1))) (semicolon.change (.move (Position.indent 1)))
    (.endOfFile ((scan text).finish.indent 1)) letter type' named closed
  have same : mark :: (Lexical.pushed words' ++ name.change (.move (Position.indent 1)) ::
      semicolon.change (.move (Position.indent 1)) :: Lexical.pushed others) =
        mainTokens (byteOrderMark :: text) := by
    rw [marked]
    simp [Lexical.pushed]
  have count : (Lexical.pushed words').length + 3 = words.length + 2 + taken := by
    simp only [Lexical.pushed, length_map]
    omega
  rw [same, count] at declared
  obtain ⟨nameEq, grammar⟩ := Grammar.ofText_behindMark file taken [mark.position] tokens type named closed
    finish declared (by
      simp only [Tree.tokensOf, Tree.tokens, tokensOf_leaves, singleton_append, map_cons,
        Lexical.pushed_texts]
      rw [← kind]
      simp)
  rw [grammar, show (name.change _).text = name.text from rfl, ← nameEq]
  rfl

/-- Where the word `grammar` is part of the mark, it is taken for the name of the grammar. -/
theorem Grammar.ofText_swallowing (only : words.length = 1)
    (marked : mainTokens (byteOrderMark :: text) = mark :: Lexical.pushed (name :: semicolon :: others))
    (kind : GrammarKind.ofText (String.join (words.map (·.text))).toList = .combined) :
    Grammar.ofText file (byteOrderMark :: text) =
      { (Grammar.ofText file text).relocate (Range.relocate (Position.indent 1)) with
        name := mark.text } := by
  have declared := declares_swallowing (Lexical.pushed others) mark
    (name.change (.move (Position.indent 1))) (semicolon.change (.move (Position.indent 1)))
    (.endOfFile ((scan text).finish.indent 1)) letter named closed
  have same : mark :: name.change (.move (Position.indent 1)) ::
      semicolon.change (.move (Position.indent 1)) :: Lexical.pushed others =
        mainTokens (byteOrderMark :: text) := by
    rw [marked]
    rfl
  have count : 3 = words.length + 2 + 0 := by rw [only]
  rw [same, count] at declared
  have grammar := Grammar.ofText_behindMark file 0
    [(name.change (.move (Position.indent 1))).position, mark.position] tokens type named closed finish declared
  exact (grammar (by rw [kind]; decide)).2

end Cases

theorem Lexical.DeclaresGrammar.tokens (declares : DeclaresGrammar text) :
    ∃ words name semicolon others, mainTokens text = words ++ name :: semicolon :: others ∧
      words.map (·.kind) ∈ typeWords ∧ name.kind ∈ nameKinds ∧ semicolon.kind = .semicolon := by
  obtain ⟨type, isType, kind, isName, later, kinds⟩ := declares.kinds
  obtain ⟨words, behind, tokens, isWords, kinds⟩ := map_eq_append_iff.mp kinds
  obtain ⟨name, behind', rfl, named, kinds⟩ := map_eq_cons_iff.mp kinds
  obtain ⟨semicolon, others, rfl, closed, -⟩ := map_eq_cons_iff.mp kinds
  exact ⟨words, name, semicolon, others, tokens, isWords ▸ isType, named ▸ isName, closed⟩

/-- The mark moves the grammar by one column and changes nothing of it but its name, and that only where
the declaration begins at once with the word `grammar`. -/
theorem Grammar.ofText_byteOrderMark (file : String) (declares : DeclaresGrammar text)
    (clean : Position.start ∉ (scan text).errors) :
    Grammar.ofText file (byteOrderMark :: text) =
      { (Grammar.ofText file text).relocate (Range.relocate (Position.indent 1)) with
        name := if "grammar".toList <+: text then "\ufeffgrammar" else (Grammar.ofText file text).name } := by
  obtain ⟨words, name, semicolon, others, tokens, type, named, closed⟩ := declares.tokens
  obtain ⟨front, rest, mark, prefixed⟩ := declares.prefixed clean
  have inside : ∀ token ∈ words, token ∈ (scan text).tokens := by
    intro token mem
    have : token ∈ mainTokens text := by
      rw [tokens]
      exact mem_append_left _ mem
    exact mem_of_mem_filter this
  have spelled := Lexical.type_text type inside
  have kind := GrammarKind.ofText_mark _ spelled
  have marked : mainTokens (byteOrderMark :: text) =
      mark :: Lexical.pushed (rest.filter (·.channel == .main)) := by
    rw [mainTokens, prefixed.marked, filter_cons_of_pos (by simp [prefixed.channel]), filter_map]
    rfl
  have parts : front.filter (·.channel == .main) ++ rest.filter (·.channel == .main) =
      words ++ name :: semicolon :: others := by
    rw [← filter_append, ← prefixed.tokens]
    exact tokens
  rcases prefixed.front with ⟨rfl, otherwise⟩ | ⟨word, rfl, main, isGrammar⟩
  · -- The mark stands alone.
    rw [filter_nil, nil_append] at parts
    rw [parts] at marked
    rw [if_neg otherwise, Grammar.ofText_dropping file prefixed.kind tokens type named closed prefixed.finish
      marked type rfl (by rw [prefixed.spelled]; simpa using kind)]
    rfl
  · rw [filter_cons_of_pos (by simp [main]), filter_nil, singleton_append] at parts
    rcases Phrase.typeWords_cases type with ⟨first, second, rfl, kind₁, kind₂⟩ | ⟨only, rfl, kind₁⟩
    · -- The mark takes `lexer` or `parser` with it.
      obtain ⟨rfl, behind⟩ := cons.inj parts
      have otherwise : ¬ "grammar".toList <+: text := by
        rw [← isGrammar]
        rintro same
        simp [same] at kind₁
      rw [behind] at marked
      have type' : [second].map (·.kind) ∈ typeWords := by simp [kind₂, typeWords]
      have same := Grammar.ofText_dropping file prefixed.kind tokens type named closed prefixed.finish marked
        type' (Nat.add_zero 2) (by rw [prefixed.spelled]; simpa using kind)
      rw [if_neg otherwise, same]
      rfl
    · -- The mark takes `grammar` with it, and the name of the grammar is dropped.
      obtain ⟨rfl, behind⟩ := cons.inj parts
      rw [behind] at marked
      have grammar : word.text = "grammar" := @Lexical.keyword_text text word (inside word (by simp))
        ("grammar", .grammarKeyword) (by decide) kind₁
      rw [if_pos (isGrammar.mp kind₁), Grammar.ofText_swallowing file prefixed.kind tokens type named closed
        prefixed.finish rfl marked (by simp [grammar]; decide), prefixed.spelled]
      simp [grammar]

end Marked

variable {bytes : List UInt8}

/-- Where in a file a text stands is only told in errors. -/
theorem Text.Utf8.decodeFrom_position {position : Nat} {pending : Option Pending}
    {text : List Char} (decoded : decodeFrom position pending bytes = .ok text) (other : Nat) :
    decodeFrom other pending bytes = .ok text := by
  induction bytes generalizing position pending text other with
  | nil =>
    cases pending with
    | none => exact decoded
    | some p => cases decoded
  | cons b rest ih =>
    -- Each step gives a character or none, and goes on with the next position.
    have char : ∀ c, (decodeFrom (position + 1) none rest).map (c :: ·) = .ok text →
        (decodeFrom (other + 1) none rest).map (c :: ·) = .ok text := by
      intro c read
      cases behind : decodeFrom (position + 1) none rest with
      | error fault => simp [behind, Except.map] at read
      | ok later => rwa [ih behind, ← behind]
    cases pending with
    | none =>
      rw [decodeFrom] at decoded ⊢
      split at decoded
      · rename_i low
        rw [if_pos low]
        exact char _ decoded
      · rename_i high
        rw [if_neg high]
        split at decoded
        · cases decoded
        · exact ih decoded _
    | some p =>
      rw [decodeFrom] at decoded ⊢
      split at decoded
      · cases decoded
      · rename_i inside
        rw [if_neg inside]
        split at decoded
        · rename_i last
          rw [if_pos last]
          exact char _ decoded
        · rename_i more
          rw [if_neg more]
          exact ih decoded _

theorem Text.Utf8.decode_byteOrderMark {text : List Char}
    (decoded : decode bytes = .ok text) :
    decode (0xEF :: 0xBB :: 0xBF :: bytes) = .ok (Lexical.byteOrderMark :: text) := by
  have mark : String.utf8EncodeChar Lexical.byteOrderMark = [0xEF, 0xBB, 0xBF] := by decide
  have read := decodeFrom_encodeChar 0 Lexical.byteOrderMark bytes
  rw [decodeFrom_position decoded] at read
  exact read

theorem Range.lines_indent (n : Nat) (first last : Lexical.Position) :
    ((between first last).relocate (Lexical.Position.indent n)).startLine = (between first last).startLine ∧
      ((between first last).relocate (Lexical.Position.indent n)).endLine = (between first last).endLine := by
  rw [relocate_between]
  simp [between, Lexical.Position.line_indent]

/-- The issue, with a header for a grammar of another name if it asks for a header. -/
def Issue.heading (name : String) (issue : Issue) : Issue :=
  if issue.rule = Check.headerDocumentation.id then
    { issue with suggestions := [⟨"Add header comment", s!"Add at the beginning of file:\n/*\n * Grammar: {name}\n * Description: [Brief description]\n * Author: [Your name]\n * Date: [Date]\n */"⟩] }
  else issue

theorem Issue.heading_other {name : String} {issue : Issue}
    (other : issue.rule ≠ Check.headerDocumentation.id) : issue.heading name = issue := if_neg other

theorem Issue.bare_heading (name : String) (issue : Issue) :
    (issue.heading name).bare = issue.bare.heading name := by
  unfold heading
  by_cases asks : issue.rule = Check.headerDocumentation.id
  · rw [if_pos asks, if_pos (show issue.bare.rule = _ from asks)]
    rfl
  · rw [if_neg asks, if_neg (show issue.bare.rule ≠ _ from asks)]

namespace Check

variable {check : Check} {h : Range → Range} {g : Grammar} {config : RuleConfig}

theorem headerDocumentation_named (name : String) :
    headerDocumentation.issues { g with name := name } config =
      (headerDocumentation.issues g config).map (map (Issue.heading name)) := by
  have alone : ∀ issue, Issue.settle [issue] = [issue] := fun issue => by
    simp [Issue.settle, splitBy, splitBy.loop]
  unfold issues headerDocumentation
  simp only [ok_bind, alone]
  rfl

/-- The name of the grammar is only used in the header that is asked for. -/
theorem issues_named (mem : check ∈ all) (name : String) :
    check.issues { g with name := name } config =
      (check.issues g config).map (map (Issue.heading name)) := by
  have reads : check = headerDocumentation ∨ check.id ≠ headerDocumentation.id ∧
      check.issues { g with name := name } config = check.issues g config := by
    simp only [all, mem_cons, not_mem_nil, or_false] at mem
    rcases mem with rfl | rfl | rfl | rfl | rfl | rfl | rfl | rfl | rfl | rfl | rfl | rfl | rfl |
      rfl | rfl | rfl | rfl | rfl | rfl | rfl | rfl
    case inr.inr.inr.inr.inr.inr.inr.inr.inr.inr.inr.inr.inr.inr.inr.inr.inr.inr.inr.inr => exact .inl rfl
    all_goals exact .inr ⟨by decide, rfl⟩
  rcases reads with rfl | ⟨other, same⟩
  · exact headerDocumentation_named name
  · rw [same]
    unfold issues
    cases ran : check.run g config with
    | error fault => rfl
    | ok issues =>
      have kept : (Issue.settle issues).map (Issue.heading name) = (Issue.settle issues).map (·) := by
        refine map_congr_left fun issue inside => Issue.heading_other ?_
        rw [(run_attributed mem ran issue (Issue.mem_settle.mp inside)).rule]
        exact other
      exact congrArg Except.ok (kept.trans (map_id' _)).symm

/-- The length of a rule does not depend on columns. -/
theorem longRule_lines
    (lines : ∀ range, some range ∈ g.rules.flatMap Rule.ranges →
      (h range).startLine = range.startLine ∧ (h range).endLine = range.endLine) :
    longRule.finds (g.relocate h) config = longRule.finds g config := by
  refine map_bind_congr fun maxLines => ?_
  rw [map_filterMapM, map_filterMapM]
  refine filterMapM_map_congr fun r mem => ?_
  cases range : r.range with
  | none =>
    have moved : (r.relocate h).range = none := by simp [Rule.relocate, range]
    simp [moved]
  | some place =>
    have moved : (r.relocate h).range = some (h place) := by simp [Rule.relocate, range]
    obtain ⟨first, last⟩ := lines place (mem_flatMap.mpr ⟨r, mem, by simp [Rule.ranges, range]⟩)
    simp only [moved, first, last]
    refine map_bind_congr fun long => ?_
    cases long with
    | false => rw [if_neg Bool.false_ne_true, if_neg Bool.false_ne_true]
    | true =>
      exact map_bind_congr fun count => rfl

end Check

namespace Linter

variable {config : Config} {g : Grammar}

theorem run_named (name : String) :
    run { config } { g with name := name } =
      (run { config } g).map (map (Issue.heading name)) := by
  have same := @run_view_congr config g Issue (map (Issue.heading name)) id { g with name := name }
    (fun _ => map_flatten) (fun _ => by simp) fun check mem rule => ?_
  · cases ran : run { config } { g with name := name } <;> rw [ran] at same <;> exact same
  · rw [Check.issues_named mem]
    cases check.issues g rule <;> rfl

variable (config) in
/-- The files as the checks see them where it does not matter at which column something stands. -/
theorem run_columns {h : Range → Range} (keeps : g.KeepsOrder h)
    (lines : ∀ range, some range ∈ g.rules.flatMap Rule.ranges →
      (h range).startLine = range.startLine ∧ (h range).endLine = range.endLine) :
    (run { config } (g.relocate h)).map (map Issue.bare) =
      (run { config } g).map (map Issue.bare) := by
  refine run_view_congr (fun _ => map_flatten) (fun _ => map_flatten) fun check mem rule => ?_
  rcases Check.bare_relocate mem keeps with rfl | same
  · exact Check.bare_of_finds mem (by decide) (Check.longRule_lines lines)
  · exact same

def unplaced (result : LintResult) : String × List Issue := (result.file, result.issues.map Issue.bare)

/-- What a check finds in a text behind a byte order mark: the mark and the word `grammar` are read as one
name, which is then taken for the name of the grammar. -/
def behindMark (text : List Char) (issue : Issue) : Issue :=
  if "grammar".toList <+: text then issue.heading "\ufeffgrammar" else issue

theorem run_byteOrderMark {text : List Char} (path : String) (declares : Lexical.DeclaresGrammar text)
    (clean : Lexical.Position.start ∉ (Lexical.scan text).errors) :
    (run { config } (Grammar.ofText path (Lexical.byteOrderMark :: text))).map (map Issue.bare) =
      (run { config } (Grammar.ofText path text)).map
        (map fun issue => behindMark text issue.bare) := by
  have keeps := @Grammar.ofText_keepsOrder text path (Lexical.Position.indent 1) fun a _ b _ =>
    Lexical.Position.indent_precedes
  have lines : ∀ range, some range ∈ (Grammar.ofText path text).rules.flatMap Rule.ranges →
      (range.relocate (Lexical.Position.indent 1)).startLine = range.startLine ∧
        (range.relocate (Lexical.Position.indent 1)).endLine = range.endLine := by
    intro range inside
    obtain ⟨start, -, stop, -, rfl⟩ := Grammar.ofText_among inside
    exact Range.lines_indent 1 start.position stop.position
  have same := run_columns config keeps lines
  rw [Grammar.ofText_byteOrderMark path declares clean]
  unfold behindMark
  split
  · have moved : ∀ x : Except Fault (List Issue),
        (x.map (map (Issue.heading "\ufeffgrammar"))).map (map Issue.bare) =
          (x.map (map Issue.bare)).map (map (Issue.heading "\ufeffgrammar")) := by
      rintro (fault | issues)
      · rfl
      · simp only [ok_map, map_map]
        exact congrArg Except.ok (map_congr_left fun issue _ => Issue.bare_heading _ issue)
    rw [run_named, moved, same]
    cases run { config } (Grammar.ofText path text) with
    | error fault => rfl
    | ok issues => simp [Function.comp_def]
  · exact same

/-- A byte order mark only changes the header that is asked for: where it stands directly before the word
`grammar`, the header does not have the name of the grammar. -/
theorem lint_byteOrderMark {path : String} {bytes : List UInt8} {text : List Char}
    (decoded : Text.Utf8.decode bytes = .ok text) (declares : Lexical.DeclaresGrammar text)
    (clean : Lexical.Position.start ∉ (Lexical.scan text).errors) :
    (Linter.lint { config } path (.ok (0xEF :: 0xBB :: 0xBF :: bytes))).map unplaced =
      (Linter.lint { config } path (.ok bytes)).map fun result =>
        (result.file, result.issues.map fun issue => behindMark text issue.bare) := by
  have marked := @lint_view _ (List.map Issue.bare) config path _ _ (Text.Utf8.decode_byteOrderMark decoded)
  have plain := @lint_view _ (List.map fun issue => behindMark text issue.bare) config path _ _ decoded
  refine marked.trans (Eq.trans ?_ plain.symm)
  have failed : ∀ message, behindMark text (failure path message).bare = (failure path message).bare := by
    intro message
    unfold behindMark
    split
    · exact Issue.heading_other (show "PARSE_ERROR" ≠ "D002" by decide)
    · rfl
  rw [run_byteOrderMark path declares clean]
  cases Linter.run { config } (Grammar.ofText path text) with
  | error fault => simp [Except.map, seen, failed]
  | ok issues => rfl

/-- A file that begins at once with the word that the mark is read into. -/
theorem lint_byteOrderMark_declared :
    Lexical.DeclaresGrammar "grammar G;r:a;".toList ∧
    Lexical.Position.start ∉ (Lexical.scan "grammar G;r:a;".toList).errors ∧
    (Linter.lint { } "G.g4" (.ok (0xEF :: 0xBB :: 0xBF :: Text.Utf8.encode "grammar G;r:a;".toList))).map unplaced =
      (Linter.lint { } "G.g4" (.ok (Text.Utf8.encode "grammar G;r:a;".toList))).map fun result =>
        (result.file, result.issues.map fun issue => behindMark "grammar G;r:a;".toList issue.bare) := by
  have name : Derives Category.identifier.form [.tokenRef] := .oneOf (by decide)
  have type : Derives Category.grammarType.form [.grammarKeyword] := .choice (.right (.right .token))
  have declares : Lexical.DeclaresGrammar "grammar G;r:a;".toList :=
    ⟨_, .seq (.call type) (.seq (.call name) .token), by decide +kernel⟩
  have clean : Lexical.Position.start ∉ (Lexical.scan "grammar G;r:a;".toList).errors := by decide +kernel
  exact ⟨declares, clean, lint_byteOrderMark (Text.Utf8.decode_encode _) declares clean⟩

/-- What is found in the file of a text by one check. -/
def foundBy (id : String) (text : String) : Option (List Issue) :=
  (lint { config := { rules := [(id, {})] } } "G.g4" (.ok (Text.Utf8.encode text.toList))).toOption.map
    fun result => result.issues.map Issue.bare

/-- Behind a byte order mark a grammar is asked for with another name, and where the declaration has no name
a rule is read that is not read without the mark. -/
theorem byteOrderMark_matters :
    foundBy "D002" "\ufeffgrammar G;r:a;" ≠ foundBy "D002" "grammar G;r:a;" ∧
    foundBy "S001" "\ufeffgrammar ;r:'a';" ≠ foundBy "S001" "grammar ;r:'a';" := by
  decide +kernel

end Linter

end GrammarLint
