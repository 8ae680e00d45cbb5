import GrammarLint.Grammar.Basic
import GrammarLint.Phrase.Parser
import GrammarLint.Text.CaseMap
import GrammarLint.Text.Search

namespace GrammarLint

open Phrase

namespace Phrase.Tree

def phrase? (category : Category) (tree : Tree) : Option Tree := (tree.phrases category).head?

/-- The range of a phrase: from its start to its stop, or to its start if there is no stop. -/
def range : Tree → Option Range
  | .phrase _ start stop _ =>
    let stop := stop.getD start
    some ⟨start.position.line, start.position.column + 1, stop.position.line,
      stop.position.column + 1⟩
  | _ => none

end Phrase.Tree

namespace Element

def ofTree (tree : Tree) : Element :=
  { text := tree.text, range := tree.range, label := none,
    type := ElementType.ofText tree.text.toList }

end Element

namespace Rule

def parserAlternatives (tree : Tree) : List Alternative :=
  match (tree.phrase? .ruleBlock).bind (·.phrase? .ruleAltList) with
  | none => []
  | some list => (list.phrases .labeledAlt).map fun alt =>
    { elements := match alt.phrase? .alternative with
        | some body => (body.phrases .element).map Element.ofTree
        | none => [],
      label := (alt.phrase? .identifier).map (·.text),
      range := none }

/-- The alternatives of a lexer rule; commands are left out. -/
def lexerAlternatives (tree : Tree) : List Alternative :=
  match (tree.phrase? .lexerRuleBlock).bind (·.phrase? .lexerAltList) with
  | none => []
  | some list => (list.phrases .lexerAlt).map fun alt =>
    { elements := match alt.phrase? .lexerElements with
        | some body => (body.phrases .lexerElement).map Element.ofTree
        | none => [],
      label := none,
      range := none }

/-- The name that the first token of a kind gives. -/
def nameIn (kind : Lexical.Kind) (tree : Tree) : String :=
  ((tree.tokensOfKind kind).head?.map (·.text)).getD "unknown"

def ofParserTree (tree : Tree) : Rule :=
  { name := nameIn .ruleRef tree, isLexer := false, isFragment := false, mode := none,
    range := tree.range, alternatives := parserAlternatives tree }

def ofLexerTree (tree : Tree) : Rule :=
  { name := nameIn .tokenRef tree, isLexer := true,
    isFragment := !(tree.tokensOfKind .fragmentKeyword).isEmpty, mode := none,
    range := tree.range, alternatives := lexerAlternatives tree }

/-- The rule in a rule phrase, if it is one of a parser or a lexer. -/
def ofTree? (tree : Tree) : Option Rule :=
  match tree.phrase? .parserRuleSpec, tree.phrase? .lexerRuleSpec with
  | some spec, _ => some (ofParserTree spec)
  | none, some spec => some (ofLexerTree spec)
  | none, none => none

end Rule

namespace GrammarKind

/-- The kind that the words in front of the name of a grammar tell. -/
def ofText (text : List Char) : GrammarKind :=
  let text := Text.toLower text
  if Text.hasInfix "lexer".toList text then .lexer
  else if Text.hasInfix "parser".toList text then .parser
  else .combined

end GrammarKind

namespace Grammar

/-- The grammar in a parsed file. Rules in mode sections are not part of it. -/
def ofTree (file : String) (tree : Tree) : Grammar :=
  let declaration := tree.phrase? .grammarDecl
  { file := file,
    kind := match declaration.bind (·.phrase? .grammarType) with
      | some words => GrammarKind.ofText words.text.toList
      | none => .combined,
    name := ((declaration.bind (·.phrase? .identifier)).map (·.text)).getD "Unknown",
    range := some ⟨1, 1, 1, 1⟩,
    rules := match tree.phrase? .rules with
      | some rules => (rules.phrases .ruleSpec).filterMap Rule.ofTree?
      | none => [] }

def ofText (file : String) (text : List Char) : Grammar :=
  ofTree file (parse .grammarSpec text).tree

end Grammar

end GrammarLint
