import GrammarLint.Phrase.Form

namespace GrammarLint.Phrase

open Lexical (Kind)
open Sketch

namespace Category

def sketch : Category → Sketch
  | .grammarSpec =>
    seq [call .grammarDecl, star .one (call .prequelConstruct), call .rules,
      star .one (call .modeSpec), token .endOfFile]
  | .grammarDecl => seq [call .grammarType, call .identifier, token .semicolon]
  | .grammarType =>
    choice .one [seq [token .lexerKeyword, token .grammarKeyword],
      seq [token .parserKeyword, token .grammarKeyword], token .grammarKeyword]
  | .prequelConstruct =>
    choice .one [call .optionsSpec, call .delegateGrammars, call .tokensSpec, call .channelsSpec,
      call .action]
  | .optionsSpec =>
    seq [token .optionsOpen, star .one (seq [call .option, token .semicolon]), token .rightBrace]
  | .option => seq [call .identifier, token .assign, call .optionValue]
  | .optionValue =>
    choice .one [separated .dot (call .identifier), token .stringLiteral, call .actionBlock,
      token .integer]
  | .delegateGrammars =>
    seq [token .importKeyword, separated .comma (call .delegateGrammar), token .semicolon]
  | .delegateGrammar =>
    choice .full [seq [call .identifier, token .assign, call .identifier], call .identifier]
  | .tokensSpec => seq [token .tokensOpen, optional .one (call .idList), token .rightBrace]
  | .channelsSpec => seq [token .channelsOpen, optional .one (call .idList), token .rightBrace]
  | .idList =>
    seq [call .identifier, star .full (seq [token .comma, call .identifier]),
      optional .one (token .comma)]
  | .action =>
    seq [token .atSign, optional .full (seq [call .actionScopeName, token .doubleColon]),
      call .identifier, call .actionBlock]
  | .actionScopeName =>
    choice .one [call .identifier, token .lexerKeyword, token .parserKeyword]
  | .actionBlock => token .action
  | .argActionBlock =>
    seq [token .beginArgument, lazyStar (token .argumentContent), token .endArgument]
  | .modeSpec =>
    seq [token .modeKeyword, call .identifier, token .semicolon, star .one (call .lexerRuleSpec)]
  | .rules => star .one (call .ruleSpec)
  | .ruleSpec => choice .full [call .parserRuleSpec, call .lexerRuleSpec]
  | .parserRuleSpec =>
    seq [optional .one (call .ruleModifiers), token .ruleRef,
      optional .one (call .argActionBlock), optional .one (call .ruleReturns),
      optional .one (call .throwsSpec), optional .one (call .localsSpec),
      star .one (call .rulePrequel), token .colon, call .ruleBlock, token .semicolon,
      call .exceptionGroup]
  | .exceptionGroup =>
    seq [star .one (call .exceptionHandler), optional .one (call .finallyClause)]
  | .exceptionHandler => seq [token .catchKeyword, call .argActionBlock, call .actionBlock]
  | .finallyClause => seq [token .finallyKeyword, call .actionBlock]
  | .rulePrequel => choice .one [call .optionsSpec, call .ruleAction]
  | .ruleReturns => seq [token .returnsKeyword, call .argActionBlock]
  | .throwsSpec => seq [token .throwsKeyword, separated .comma (call .qualifiedIdentifier)]
  | .localsSpec => seq [token .localsKeyword, call .argActionBlock]
  | .ruleAction => seq [token .atSign, call .identifier, call .actionBlock]
  | .ruleModifiers => plus (call .ruleModifier)
  | .ruleModifier =>
    oneOf [.publicKeyword, .privateKeyword, .protectedKeyword, .fragmentKeyword]
  | .ruleBlock => call .ruleAltList
  | .ruleAltList => separated .bar (call .labeledAlt)
  | .labeledAlt =>
    seq [call .alternative, optional .one (seq [token .pound, call .identifier])]
  | .lexerRuleSpec =>
    seq [optional .one (token .fragmentKeyword), token .tokenRef,
      optional .one (call .optionsSpec), token .colon, call .lexerRuleBlock, token .semicolon]
  | .lexerRuleBlock => call .lexerAltList
  | .lexerAltList => separated .bar (call .lexerAlt)
  | .lexerAlt =>
    choice .full [seq [call .lexerElements, optional .one (call .lexerCommands)], nothing]
  | .lexerElements => choice .one [plus (call .lexerElement), nothing]
  | .lexerElement =>
    choice .one [seq [call .lexerAtom, optional .one (call .ebnfSuffix)],
      seq [call .lexerBlock, optional .one (call .ebnfSuffix)],
      seq [call .actionBlock, optional .one (token .question)]]
  | .lexerBlock => seq [token .leftParen, call .lexerAltList, token .rightParen]
  | .lexerCommands => seq [token .arrow, separated .comma (call .lexerCommand)]
  | .lexerCommand =>
    choice .full [seq [call .lexerCommandName, token .leftParen, call .lexerCommandExpr,
      token .rightParen], call .lexerCommandName]
  | .lexerCommandName => choice .one [call .identifier, token .modeKeyword]
  | .lexerCommandExpr => choice .one [call .identifier, token .integer]
  | .altList => separated .bar (call .alternative)
  | .alternative =>
    choice .one [seq [optional .one (call .elementOptions), plus (call .element)], nothing]
  | .element =>
    choice .full [seq [call .labeledElement, choice .one [call .ebnfSuffix, nothing]],
      seq [call .atom, choice .one [call .ebnfSuffix, nothing]],
      call .ebnf,
      seq [call .actionBlock, optional .one (token .question),
        optional .one (call .predicateOptions)]]
  | .predicateOptions =>
    seq [token .less, separated .comma (call .predicateOption), token .greater]
  | .predicateOption =>
    choice .full [call .elementOption,
      seq [call .identifier, token .assign,
        choice .one [call .actionBlock, token .integer, token .stringLiteral]]]
  | .labeledElement =>
    seq [call .identifier, oneOf [.assign, .plusAssign], choice .one [call .atom, call .block]]
  | .ebnf => seq [call .block, optional .one (call .blockSuffix)]
  | .blockSuffix => call .ebnfSuffix
  | .ebnfSuffix =>
    choice .one [seq [token .question, optional .one (token .question)],
      seq [token .star, optional .one (token .question)],
      seq [token .plus, optional .one (token .question)]]
  | .lexerAtom =>
    choice .full [call .characterRange, call .terminalDef, call .notSet, token .lexerCharSet,
      call .wildcard]
  | .atom => choice .one [call .terminalDef, call .ruleRef, call .notSet, call .wildcard]
  | .wildcard => seq [token .dot, optional .one (call .elementOptions)]
  | .notSet =>
    choice .full [seq [token .tilde, call .setElement], seq [token .tilde, call .blockSet]]
  | .blockSet =>
    seq [token .leftParen, separated .bar (call .setElement), token .rightParen]
  | .setElement =>
    choice .full [seq [token .tokenRef, optional .one (call .elementOptions)],
      seq [token .stringLiteral, optional .one (call .elementOptions)],
      call .characterRange, token .lexerCharSet]
  | .block =>
    seq [token .leftParen,
      optional .one (seq [optional .one (call .optionsSpec), star .one (call .ruleAction),
        token .colon]),
      call .altList, token .rightParen]
  | .ruleRef =>
    seq [token .ruleRef, optional .one (call .argActionBlock),
      optional .one (call .elementOptions)]
  | .characterRange => seq [token .stringLiteral, token .doubleDot, token .stringLiteral]
  | .terminalDef =>
    choice .one [seq [token .tokenRef, optional .one (call .elementOptions)],
      seq [token .stringLiteral, optional .one (call .elementOptions)]]
  | .elementOptions =>
    seq [token .less, separated .comma (call .elementOption), token .greater]
  | .elementOption =>
    choice .full [call .qualifiedIdentifier,
      seq [call .identifier, token .assign,
        choice .one [call .qualifiedIdentifier, token .stringLiteral, token .integer]]]
  | .identifier => oneOf [.ruleRef, .tokenRef]
  | .qualifiedIdentifier => separated .dot (call .identifier)

/-- The form of a category, with its places numbered. -/
def form (category : Category) : Form := (category.sketch 0).1

end Category

end GrammarLint.Phrase
