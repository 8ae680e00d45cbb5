import GrammarLint.Lexical.Kind

namespace GrammarLint.Phrase

open Lexical (Kind)

inductive Category where
  | grammarSpec
  | grammarDecl
  | grammarType
  | prequelConstruct
  | optionsSpec
  | option
  | optionValue
  | delegateGrammars
  | delegateGrammar
  | tokensSpec
  | channelsSpec
  | idList
  | action
  | actionScopeName
  | actionBlock
  | argActionBlock
  | modeSpec
  | rules
  | ruleSpec
  | parserRuleSpec
  | exceptionGroup
  | exceptionHandler
  | finallyClause
  | rulePrequel
  | ruleReturns
  | throwsSpec
  | localsSpec
  | ruleAction
  | ruleModifiers
  | ruleModifier
  | ruleBlock
  | ruleAltList
  | labeledAlt
  | lexerRuleSpec
  | lexerRuleBlock
  | lexerAltList
  | lexerAlt
  | lexerElements
  | lexerElement
  | lexerBlock
  | lexerCommands
  | lexerCommand
  | lexerCommandName
  | lexerCommandExpr
  | altList
  | alternative
  | element
  | predicateOptions
  | predicateOption
  | labeledElement
  | ebnf
  | blockSuffix
  | ebnfSuffix
  | lexerAtom
  | atom
  | wildcard
  | notSet
  | blockSet
  | setElement
  | block
  | ruleRef
  | characterRange
  | terminalDef
  | elementOptions
  | elementOption
  | identifier
  | qualifiedIdentifier
deriving DecidableEq, Repr

namespace Category

def name : Category → String
  | .grammarSpec => "grammarSpec"
  | .grammarDecl => "grammarDecl"
  | .grammarType => "grammarType"
  | .prequelConstruct => "prequelConstruct"
  | .optionsSpec => "optionsSpec"
  | .option => "option"
  | .optionValue => "optionValue"
  | .delegateGrammars => "delegateGrammars"
  | .delegateGrammar => "delegateGrammar"
  | .tokensSpec => "tokensSpec"
  | .channelsSpec => "channelsSpec"
  | .idList => "idList"
  | .action => "action_"
  | .actionScopeName => "actionScopeName"
  | .actionBlock => "actionBlock"
  | .argActionBlock => "argActionBlock"
  | .modeSpec => "modeSpec"
  | .rules => "rules"
  | .ruleSpec => "ruleSpec"
  | .parserRuleSpec => "parserRuleSpec"
  | .exceptionGroup => "exceptionGroup"
  | .exceptionHandler => "exceptionHandler"
  | .finallyClause => "finallyClause"
  | .rulePrequel => "rulePrequel"
  | .ruleReturns => "ruleReturns"
  | .throwsSpec => "throwsSpec"
  | .localsSpec => "localsSpec"
  | .ruleAction => "ruleAction"
  | .ruleModifiers => "ruleModifiers"
  | .ruleModifier => "ruleModifier"
  | .ruleBlock => "ruleBlock"
  | .ruleAltList => "ruleAltList"
  | .labeledAlt => "labeledAlt"
  | .lexerRuleSpec => "lexerRuleSpec"
  | .lexerRuleBlock => "lexerRuleBlock"
  | .lexerAltList => "lexerAltList"
  | .lexerAlt => "lexerAlt"
  | .lexerElements => "lexerElements"
  | .lexerElement => "lexerElement"
  | .lexerBlock => "lexerBlock"
  | .lexerCommands => "lexerCommands"
  | .lexerCommand => "lexerCommand"
  | .lexerCommandName => "lexerCommandName"
  | .lexerCommandExpr => "lexerCommandExpr"
  | .altList => "altList"
  | .alternative => "alternative"
  | .element => "element"
  | .predicateOptions => "predicateOptions"
  | .predicateOption => "predicateOption"
  | .labeledElement => "labeledElement"
  | .ebnf => "ebnf"
  | .blockSuffix => "blockSuffix"
  | .ebnfSuffix => "ebnfSuffix"
  | .lexerAtom => "lexerAtom"
  | .atom => "atom"
  | .wildcard => "wildcard"
  | .notSet => "notSet"
  | .blockSet => "blockSet"
  | .setElement => "setElement"
  | .block => "block"
  | .ruleRef => "ruleref"
  | .characterRange => "characterRange"
  | .terminalDef => "terminalDef"
  | .elementOptions => "elementOptions"
  | .elementOption => "elementOption"
  | .identifier => "identifier"
  | .qualifiedIdentifier => "qualifiedIdentifier"

def all : List Category := [
  .grammarSpec, .grammarDecl, .grammarType, .prequelConstruct, .optionsSpec, .option,
  .optionValue, .delegateGrammars, .delegateGrammar, .tokensSpec, .channelsSpec, .idList,
  .action, .actionScopeName, .actionBlock, .argActionBlock, .modeSpec, .rules, .ruleSpec,
  .parserRuleSpec, .exceptionGroup, .exceptionHandler, .finallyClause, .rulePrequel,
  .ruleReturns, .throwsSpec, .localsSpec, .ruleAction, .ruleModifiers, .ruleModifier,
  .ruleBlock, .ruleAltList, .labeledAlt, .lexerRuleSpec, .lexerRuleBlock, .lexerAltList,
  .lexerAlt, .lexerElements, .lexerElement, .lexerBlock, .lexerCommands, .lexerCommand,
  .lexerCommandName, .lexerCommandExpr, .altList, .alternative, .element, .predicateOptions,
  .predicateOption, .labeledElement, .ebnf, .blockSuffix, .ebnfSuffix, .lexerAtom, .atom,
  .wildcard, .notSet, .blockSet, .setElement, .block, .ruleRef, .characterRange, .terminalDef,
  .elementOptions, .elementOption, .identifier, .qualifiedIdentifier]

def code (category : Category) : Nat := category.ctorIdx

def ofName? (name : String) : Option Category := all.find? (·.name == name)

end Category

/-- A numbered place in the form of a category. -/
structure Point where
  category : Category
  index : Nat
deriving DecidableEq, Repr

/-- How a decision is made: by the next token alone, or by looking ahead as far as needed. -/
inductive Lookahead where
  | one
  | full
deriving DecidableEq, Repr

/-- What a phrase may consist of. Every token, call and decision has a number of its own within
its category; a loop has one for its entry and one for the place behind a round. `rounds` is what
is left of a loop behind one of its rounds. -/
inductive Form where
  | empty
  | token (index : Nat) (kind : Kind)
  | oneOf (index : Nat) (kinds : List Kind)
  | call (index : Nat) (category : Category)
  | seq (f g : Form)
  | alt (f g : Form)
  | choice (index : Nat) (lookahead : Lookahead) (alternatives : Form)
  | optional (index : Nat) (lookahead : Lookahead) (f : Form)
  | star (index back : Nat) (lookahead : Lookahead) (greedy : Bool) (f : Form)
  | plus (index back : Nat) (f : Form)
  | rounds (back : Nat) (lookahead : Lookahead) (greedy : Bool) (f : Form)
deriving DecidableEq, Repr

def Form.alternatives : Form → List Form
  | .alt f g => f.alternatives ++ g.alternatives
  | f => [f]

/-- A form whose numbers are still to be given: from the first free number to the form and the
next free number. -/
def Sketch : Type := Nat → Form × Nat

namespace Sketch

def token (kind : Kind) : Sketch := fun n => (.token n kind, n + 1)

def oneOf (kinds : List Kind) : Sketch := fun n => (.oneOf n kinds, n + 1)

def call (category : Category) : Sketch := fun n => (.call n category, n + 1)

def nothing : Sketch := fun n => (.empty, n)

def seq : List Sketch → Sketch
  | [] => nothing
  | [s] => s
  | s :: rest => fun n =>
    let (f, n) := s n
    let (g, n) := seq rest n
    (.seq f g, n)

def alternatives : List Sketch → Sketch
  | [] => nothing
  | [s] => s
  | s :: rest => fun n =>
    let (f, n) := s n
    let (g, n) := alternatives rest n
    (.alt f g, n)

def choice (lookahead : Lookahead) (options : List Sketch) : Sketch := fun n =>
  let (f, m) := alternatives options (n + 1)
  (.choice n lookahead f, m)

def optional (lookahead : Lookahead) (s : Sketch) : Sketch := fun n =>
  let (f, m) := s (n + 1)
  (.optional n lookahead f, m)

def star (lookahead : Lookahead) (s : Sketch) : Sketch := fun n =>
  let (f, m) := s (n + 2)
  (.star n (n + 1) lookahead true f, m)

/-- A loop that ends as soon as it can. -/
def lazyStar (s : Sketch) : Sketch := fun n =>
  let (f, m) := s (n + 2)
  (.star n (n + 1) .full false f, m)

def plus (s : Sketch) : Sketch := fun n =>
  let (f, m) := s (n + 2)
  (.plus n (n + 1) f, m)

/-- `s` one or more times with `separator` between. -/
def separated (separator : Kind) (s : Sketch) : Sketch := seq [s, star .one (seq [token separator, s])]

end Sketch

end GrammarLint.Phrase
